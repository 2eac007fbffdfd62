import ClosureEnv.Proofs.Binding.Module
import ClosureEnv.Proofs.Syntax.Covering
import ClosureEnv.Proofs.Types.Printed

/-!
# Types of what is bound

The names in a source are words, so what a source states as a type is one that can be stated. What
binding infers is made of such types: the variables of a unit have words as names and types that a
source can state or show (`worded_of_source`).
-/

namespace ClosureEnv

open Syntax (isName Node)

namespace Ty

mutual

/-- What a source states as a type can be stated. -/
theorem worded_ofTypeExpr (generics : List String) : ∀ {t : Syntax.TypeExpr},
    (Node.type t).Wordy → (ofTypeExpr generics t).Worded
  | .path name, h => by
    have hname : isName name.text = true := (h.child List.mem_cons_self).ident
    unfold ofTypeExpr
    split
    iterate 5 trivial
    -- a name that is none of the words that the language knows
    · next hint hbool hstr hstring hunit =>
      have hfree : Free name.text := ⟨hname, by simp [ofWord, ofTypeExpr]⟩
      split <;> exact hfree
  | .arrow params ret _, h =>
    ⟨allWorded_ofTypeExprs generics fun t ht => h.child (by simp [Node.children, ht]),
      worded_ofTypeExpr generics (h.child (by simp [Node.children]))⟩

/-- So can what it states as types. -/
theorem allWorded_ofTypeExprs (generics : List String) : ∀ {ts : List Syntax.TypeExpr},
    (∀ t ∈ ts, (Node.type t).Wordy) → AllWorded (ofTypeExprs generics ts)
  | [], _ => trivial
  | _ :: _, h => ⟨worded_ofTypeExpr generics (h _ List.mem_cons_self),
      allWorded_ofTypeExprs generics fun t ht => h t (List.mem_cons_of_mem _ ht)⟩

end

/-- So can what it may state. -/
theorem worded_map_ofTypeExpr (generics : List String) {t : Option Syntax.TypeExpr}
    (h : ∀ u ∈ t, (Node.type u).Wordy) : ((t.map (ofTypeExpr generics)).getD unknown).Worded := by
  cases t with
  | none => trivial
  | some t => exact worded_ofTypeExpr generics (h t rfl)

/-- The type of a literal can be shown. -/
theorem worded_ofLiteral (v : Syntax.Literal) : (ofLiteral v).Worded := by
  cases v <;> trivial

end Ty

namespace Binding

/-- The names that are known have types that a source can state or show. -/
structure State.Worded (b : State) : Prop where
  vars : ∀ x ∈ b.vars, isName x.name = true ∧ x.ty.Worded
  globals : ∀ e ∈ b.globalTypes, e.2.2.Worded
  fns : ∀ e ∈ b.fnTypes, e.2.Worded

namespace State.Worded

variable {b : State}

/-- The type of a variable can be stated or shown. -/
theorem varTy (h : b.Worded) (v : VarId) : (b.varTy v).Worded := by
  unfold State.varTy
  cases hv : b.vars[v]? with
  | none => trivial
  | some x => exact (h.vars x (Array.mem_of_getElem? hv)).2

/-- So can that of a global. -/
theorem globalTy (h : b.Worded) (name : String) : (b.globalTy name).Worded := by
  unfold State.globalTy
  cases hg : b.globalTypes.lookup name with
  | none => trivial
  | some e =>
    obtain ⟨l, l', hl, -⟩ := List.lookup_eq_some_iff.mp hg
    exact h.globals (name, e) (by simp [hl])

/-- So can that of a function. -/
theorem fnTy (h : b.Worded) (name : String) : (b.fnTy name).Worded := by
  unfold State.fnTy
  cases hf : b.fnTypes.lookup name with
  | none => trivial
  | some t =>
    obtain ⟨l, l', hl, -⟩ := List.lookup_eq_some_iff.mp hf
    exact h.fns (name, t) (by simp [hl])

mutual

/-- So can that of an expression, if those of closures can. -/
theorem inferWith {closureTy : ClosureId → Ty} (h : b.Worded)
    (hc : ∀ c, (closureTy c).Worded) : ∀ e : Bound.Expr, (b.inferWith closureTy e).Worded
  | .lit value => Ty.worded_ofLiteral value
  | .var v => h.varTy v
  | .global name => h.globalTy name
  | .fn name => h.fnTy name
  | .unary op _ => by cases op <;> trivial
  | .binary op lhs _ => by
    cases op with
    | add =>
      rw [State.inferWith]
      split <;> trivial
    | _ => trivial
  | .call callee _ => by
    rw [State.inferWith]
    have := h.inferWith hc callee
    generalize b.inferWith closureTy callee = t at this ⊢
    cases t with
    | fn params ret => exact this.2
    | _ => trivial
  | .block body => h.inferBlock hc body
  | .cond _ yes _ => h.inferBlock hc yes
  | .loop _ _ => trivial
  | .closure c => hc c

/-- So can that of a block. -/
theorem inferBlock {closureTy : ClosureId → Ty} (h : b.Worded)
    (hc : ∀ c, (closureTy c).Worded) : ∀ body : Bound.Block, (b.inferBlock closureTy body).Worded
  | .mk _ _ tail => h.inferTail hc tail

/-- So can that of an optional expression. -/
theorem inferTail {closureTy : ClosureId → Ty} (h : b.Worded)
    (hc : ∀ c, (closureTy c).Worded) :
    ∀ tail : Option Bound.Expr, (b.inferTail closureTy tail).Worded
  | none => trivial
  | some e => h.inferWith hc e

end

/-- So can that of a closure. -/
theorem closureTy (h : b.Worded) (bound : Nat) (c : ClosureId) : (b.closureTy bound c).Worded := by
  -- a closure's type is inferred from its body with a smaller bound for the closures in it
  induction bound generalizing c with
  | zero => trivial
  | succ bound ih =>
    unfold State.closureTy
    split
    · refine ⟨Ty.allWorded_iff.mpr fun t ht => ?_, h.inferWith ih _⟩
      obtain ⟨v, -, rfl⟩ := List.mem_map.mp ht
      exact h.varTy v
    · trivial

/-- What is inferred can be shown. -/
theorem infer (h : b.Worded) (e : Bound.Expr) : (b.infer e).Worded :=
  h.inferWith (h.closureTy _) e

end State.Worded

/-! ## Steps of binding -/

/-- The types that are known can still be stated or shown after a step, and the step gives something
that satisfies `Q`. -/
def Keeps {α : Type} (x : Bind α) (Q : α → Prop) : Prop :=
  ∀ (b b' : State) (a : α), b.Worded → x.run b = .ok (a, b') → b'.Worded ∧ Q a

namespace Keeps

variable {α β : Type} {x : Bind α} {Q : α → Prop}

/-- Nothing is done. -/
theorem pure {a : α} (h : Q a) : Keeps (Pure.pure a : Bind α) Q := by
  intro b b' a' hb hrun
  cases run_pure_eq_ok.mp hrun
  exact ⟨hb, h⟩

/-- One step after another. -/
theorem bind {f : α → Bind β} {R : β → Prop} (hx : Keeps x Q) (hf : ∀ a, Q a → Keeps (f a) R) :
    Keeps (x >>= f) R := by
  intro b b' r hb hrun
  obtain ⟨a, b₁, h₁, h₂⟩ := run_bind_eq_ok.mp hrun
  obtain ⟨hb₁, ha⟩ := hx b b₁ a hb h₁
  exact hf a ha b₁ b' r hb₁ h₂

/-- A step that fails. -/
theorem throw (e : BindError) : Keeps (MonadExcept.throw e : Bind α) Q :=
  fun _ _ _ _ hrun => absurd hrun run_throw_ne_ok

/-- What is known can be looked at. -/
theorem get_bind {f : State → Bind α} (hf : ∀ b, b.Worded → Keeps (f b) Q) :
    Keeps (get >>= f) Q :=
  fun b b' a hb hrun => hf b hb b b' a hb hrun

/-- A step that changes what is known. -/
theorem of_run {f : State → α} {g : State → State} (hrun : ∀ b, x.run b = .ok (f b, g b))
    (hg : ∀ {b}, b.Worded → (g b).Worded) : Keeps x fun _ => True := by
  intro b b' a hb h
  cases (hrun b).symm.trans h
  exact ⟨hg hb, trivial⟩

end Keeps

variable {b b' : State}

/-- Where the names that are known stay, so do their types. -/
theorem State.Worded.of_eq (h : b.Worded) (hv : b'.vars = b.vars)
    (hg : b'.globalTypes = b.globalTypes) (hf : b'.fnTypes = b.fnTypes) : b'.Worded :=
  ⟨hv ▸ h.vars, hg ▸ h.globals, hf ▸ h.fns⟩

/-- Opening a scope. -/
theorem keeps_openScope (kind : ScopeKind) (closure : Option ClosureId) (span : Syntax.Span) :
    Keeps (openScope kind closure span) fun _ => True :=
  .of_run (fun _ => openScope_run kind closure span) fun h => h.of_eq rfl rfl rfl

/-- Closing a scope. -/
theorem keeps_closeScope : Keeps closeScope fun _ => True :=
  .of_run (fun _ => closeScope_run) fun h => h.of_eq rfl rfl rfl

/-- Noting a use. -/
theorem keeps_noteUse (v : VarId) : Keeps (noteUse v) fun _ => True := by
  refine .of_run (fun _ => noteUse_run v) fun {b} h => ?_
  unfold State.used
  split
  · exact h
  · split
    · exact h.of_eq rfl rfl rfl
    · exact h

/-- Storing into a variable. -/
theorem keeps_store (v : VarId) (sources : List Source) : Keeps (store v sources) fun _ => True :=
  .of_run (fun _ => store_run v sources) fun h => h.of_eq rfl rfl rfl

/-- Noting a sink. -/
theorem keeps_drain (sink : Sink) : Keeps (drain sink) fun _ => True :=
  .of_run (fun _ => drain_run sink) fun h => h.of_eq rfl rfl rfl

/-- Declaring a variable. -/
theorem keeps_declare {name : String} {ty : Ty} (hname : isName name = true) (hty : ty.Worded)
    (isMut isParam : Bool) (span : Syntax.Span) :
    Keeps (declare name ty isMut isParam span) fun _ => True := by
  refine .of_run (fun _ => declare_run name ty isMut isParam span) fun h => ⟨?_, h.globals, h.fns⟩
  intro x hx
  rcases Array.mem_push.mp hx with hx | rfl
  · exact h.vars x hx
  · exact ⟨hname, hty⟩

/-- The type of a parameter can be stated or shown. -/
theorem worded_paramTy {p : Syntax.Param} (h : (Node.param p).Wordy) (generics : List String) :
    (paramTy generics p).Worded :=
  Ty.worded_map_ofTypeExpr generics fun _ ht =>
    h.child (.tail _ (Option.mem_toList.mpr (Option.mem_map_of_mem _ ht)))

/-- Declaring parameters. -/
theorem keeps_declareParams {params : List Syntax.Param}
    (h : ∀ p ∈ params, (Node.param p).Wordy) : Keeps (declareParams params) fun _ => True := by
  refine .get_bind fun b hb => ?_
  induction params with
  | nil => exact .pure trivial
  | cons p params ih =>
    obtain ⟨hp, hps⟩ := List.forall_mem_cons.mp h
    rw [List.mapM_cons]
    exact (keeps_declare (hp.child List.mem_cons_self).ident (worded_paramTy hp _) true true
      p.span).bind fun v _ => (ih hps).bind fun vs _ => .pure trivial

/-- The type of a binding can be stated or shown. -/
theorem keeps_bindingTy {stated : Option Syntax.TypeExpr}
    (h : ∀ t ∈ stated, (Node.type t).Wordy) (generics : List String) (value : Bound.Expr) :
    Keeps (bindingTy stated generics value) Ty.Worded := by
  cases stated with
  | none => exact .get_bind fun b hb => .pure (hb.infer value)
  | some t => exact .pure (Ty.worded_ofTypeExpr generics (h t rfl))

/-- Resolving a name. -/
theorem keeps_resolve (name : Syntax.Ident) : Keeps (resolve name) fun _ => True := by
  refine .get_bind fun b hb => ?_
  split
  · exact (keeps_noteUse _).bind fun _ _ => .pure trivial
  split
  · exact .pure trivial
  split
  · exact .pure trivial
  · exact .throw _

/-- Assigning a value. -/
theorem keeps_assign (target : Syntax.Ident) (span : Syntax.Span) (value : Bound.Expr)
    (sources : List Source) : Keeps (assign target span value sources) fun _ => True := by
  refine .get_bind fun b hb => ?_
  split
  · dsimp only
    split
    · exact (Keeps.throw (Q := fun _ => False) _).bind fun _ h => h.elim
    · exact (keeps_noteUse _).bind fun _ _ => (keeps_store _ _).bind fun _ _ =>
        (keeps_drain _).bind fun _ _ => .pure trivial
  split
  · exact (keeps_drain _).bind fun _ _ => .pure trivial
  · exact .throw _
  split <;> exact .throw _

/-- Opening a closure. -/
theorem keeps_openClosure {params : List Syntax.Param} (h : ∀ p ∈ params, (Node.param p).Wordy)
    (span : Syntax.Span) : Keeps (openClosure params span) fun _ => True := by
  intro b b' r hb hrun
  obtain ⟨-, hrun⟩ := openClosure_run.mp hrun
  exact keeps_declareParams h (b.openedClosure span) b' r.2 (hb.of_eq rfl rfl rfl) hrun

/-- Closing a closure. -/
theorem keeps_closeClosure (c : ClosureId) (params : List VarId) (body : Bound.Expr)
    (sources : List Source) : Keeps (closeClosure c params body sources) fun _ => True :=
  .of_run (fun _ => closeClosure_run c params body sources) fun h => h.of_eq rfl rfl rfl

/-! ## Parts of bodies -/

mutual

/-- Binding an expression. -/
theorem keeps_bindExpr : ∀ {e : Syntax.Expr}, (Node.expr e).Wordy →
    Keeps (bindExpr e) fun _ => True
  | .lit value _, _ => .pure trivial
  | .var name, _ => keeps_resolve name
  | .paren inner _, h => keeps_bindExpr (e := inner) (h.child List.mem_cons_self)
  | .unary op operand _, h =>
    (keeps_bindExpr (h.child List.mem_cons_self)).bind fun _ _ => .pure trivial
  | .binary op lhs rhs _, h =>
    (keeps_bindExpr (h.child List.mem_cons_self)).bind fun _ _ =>
      (keeps_bindExpr (h.child (.tail _ List.mem_cons_self))).bind fun _ _ => .pure trivial
  | .call callee args _, h =>
    (keeps_bindExpr (h.child List.mem_cons_self)).bind fun _ _ =>
      (keeps_bindArgs fun e he => h.child (.tail _ (List.mem_map_of_mem he))).bind fun _ _ =>
        .pure trivial
  | .block body, h =>
    (keeps_bindScoped .block (h.child List.mem_cons_self)).bind fun _ _ =>
      (keeps_drain _).bind fun _ _ => .pure trivial
  | .cond test yes no _, h =>
    (keeps_bindExpr (h.child List.mem_cons_self)).bind fun _ _ =>
      (keeps_bindScoped .block (h.child (.tail _ List.mem_cons_self))).bind fun _ _ =>
        (keeps_drain _).bind fun _ _ =>
          (keeps_bindOption fun _ he => h.child (.tail _ (.tail _
            (Option.mem_toList.mpr (Option.mem_map_of_mem _ he))))).bind fun _ _ => .pure trivial
  | .loop test body _, h =>
    (keeps_bindExpr (h.child List.mem_cons_self)).bind fun _ _ =>
      (keeps_bindScoped .loop (h.child (.tail _ List.mem_cons_self))).bind fun _ _ =>
        .pure trivial
  | .closure params body span, h => by
    have hparams (p : Syntax.Param) (hp : p ∈ params) : (Node.param p).Wordy :=
      h.child (List.mem_append_left _ (List.mem_map_of_mem hp))
    have hbody : (Node.expr body).Wordy := h.child (List.mem_append_right _ List.mem_cons_self)
    -- a block that is the whole body opens no scope of its own
    by_cases hinner : ∃ inner, body = .block inner
    · obtain ⟨inner, hinner⟩ := hinner
      rw [hinner, bindExpr]
      exact (keeps_openClosure hparams span).bind fun _ _ =>
        (keeps_bindInner body hinner hbody).bind fun _ _ => keeps_closeClosure _ _ _ _
    · rw [bindExpr_closure fun inner heq => hinner ⟨inner, heq⟩]
      exact (keeps_openClosure hparams span).bind fun _ _ =>
        (keeps_bindExpr hbody).bind fun _ _ => keeps_closeClosure _ _ _ _

/-- Binding the contents of a block that is the body of a closure. -/
theorem keeps_bindInner : ∀ (e : Syntax.Expr) {inner : Syntax.Block}, e = .block inner →
    (Node.expr e).Wordy → Keeps (bindBlock none inner) fun _ => True
  | .block body, inner, he, h => by
    cases he
    exact keeps_bindBlock none (h.child List.mem_cons_self)
  | .lit .., _, he, _ | .var .., _, he, _ | .unary .., _, he, _ | .call .., _, he, _
  | .binary .., _, he, _ | .paren .., _, he, _ | .cond .., _, he, _ | .loop .., _, he, _
  | .closure .., _, he, _ => nomatch he

/-- Binding an optional expression. -/
theorem keeps_bindOption : ∀ {e : Option Syntax.Expr}, (∀ x ∈ e, (Node.expr x).Wordy) →
    Keeps (bindOption e) fun _ => True
  | none, _ => .pure trivial
  | some e, h => (keeps_bindExpr (h e rfl)).bind fun _ _ => .pure trivial

/-- Binding the arguments of a call. -/
theorem keeps_bindArgs : ∀ {es : List Syntax.Expr}, (∀ e ∈ es, (Node.expr e).Wordy) →
    Keeps (bindArgs es) fun _ => True
  | [], _ => .pure trivial
  | e :: _, h =>
    (keeps_bindExpr (h e List.mem_cons_self)).bind fun _ _ => (keeps_drain _).bind fun _ _ =>
      (keeps_bindArgs fun e' he => h e' (List.mem_cons_of_mem _ he)).bind fun _ _ => .pure trivial

/-- Binding a block that opens a scope. -/
theorem keeps_bindScoped (kind : ScopeKind) : ∀ {body : Syntax.Block}, (Node.block body).Wordy →
    Keeps (bindScoped kind body) fun _ => True
  | .mk _ _ span, h =>
    (keeps_openScope kind none span).bind fun _ _ =>
      (keeps_bindStmts fun _ hs => h.child (List.mem_append_left _ (List.mem_map_of_mem hs))).bind
        fun _ _ => (keeps_bindOption fun _ he => h.child (List.mem_append_right _
          (Option.mem_toList.mpr (Option.mem_map_of_mem _ he)))).bind fun _ _ =>
            keeps_closeScope.bind fun _ _ => .pure trivial

/-- Binding the contents of a block. -/
theorem keeps_bindBlock (scope : Option ScopeId) : ∀ {body : Syntax.Block},
    (Node.block body).Wordy → Keeps (bindBlock scope body) fun _ => True
  | .mk .., h =>
    (keeps_bindStmts fun _ hs => h.child (List.mem_append_left _ (List.mem_map_of_mem hs))).bind
      fun _ _ => (keeps_bindOption fun _ he => h.child (List.mem_append_right _
        (Option.mem_toList.mpr (Option.mem_map_of_mem _ he)))).bind fun _ _ => .pure trivial

/-- Binding statements. -/
theorem keeps_bindStmts : ∀ {ss : List Syntax.Stmt}, (∀ s ∈ ss, (Node.stmt s).Wordy) →
    Keeps (bindStmts ss) fun _ => True
  | [], _ => .pure trivial
  | s :: _, h =>
    (keeps_bindStmt (h s List.mem_cons_self)).bind fun _ _ =>
      (keeps_bindStmts fun s' hs => h s' (List.mem_cons_of_mem _ hs)).bind fun _ _ => .pure trivial

/-- Binding a statement. -/
theorem keeps_bindStmt : ∀ {s : Syntax.Stmt}, (Node.stmt s).Wordy → Keeps (bindStmt s) fun _ => True
  | .bind isMut _ _ _ span, h =>
    (keeps_bindExpr (h.child (.tail _ (List.mem_append_right _ List.mem_cons_self)))).bind
      fun _ _ => .get_bind fun b _ =>
        (keeps_bindingTy (fun _ ht => h.child (.tail _ (List.mem_append_left _
          (Option.mem_toList.mpr (Option.mem_map_of_mem _ ht))))) b.current.generics _).bind
          fun _ hty => (keeps_declare (h.child List.mem_cons_self).ident hty isMut false span).bind
            fun _ _ => (keeps_store _ _).bind fun _ _ => .pure trivial
  | .assign .., h =>
    (keeps_bindExpr (h.child (.tail _ List.mem_cons_self))).bind fun _ _ => keeps_assign _ _ _ _
  | .expr .., h =>
    (keeps_bindExpr (h.child List.mem_cons_self)).bind fun _ _ => .pure trivial
  | .ret none _, _ => .pure trivial
  | .ret (some _) _, h =>
    (keeps_bindExpr (h.child List.mem_cons_self)).bind fun _ _ =>
      (keeps_drain _).bind fun _ _ => .pure trivial

end

/-! ## Items -/

/-- Starting a function. -/
theorem keeps_openFn (name : String) (generics : List String) (span : Syntax.Span)
    (isSynthetic : Bool) : Keeps (openFn name generics span isSynthetic) fun _ => True :=
  .of_run (fun _ => openFn_run name generics span isSynthetic) fun h => h.of_eq rfl rfl rfl

/-- Ending a function. -/
theorem keeps_closeFn (params : List VarId) (ret : Ty) (body : Bound.Block) :
    Keeps (closeFn params ret body) fun _ => True :=
  .of_run (fun _ => closeFn_run params ret body) fun h => h.of_eq rfl rfl rfl

/-- The parameters of a function are below it. -/
theorem wordy_param {d : Syntax.FnDecl} (h : (Node.function d).Wordy) :
    ∀ p ∈ d.params, (Node.param p).Wordy :=
  fun p hp => h.child (by simp [Node.children, hp])

/-- Binding a function. -/
theorem keeps_bindFn {d : Syntax.FnDecl} (h : (Node.function d).Wordy) :
    Keeps (bindFn d) fun _ => True :=
  (keeps_openFn _ _ _ _).bind fun _ _ => (keeps_declareParams (wordy_param h)).bind fun _ _ =>
    (keeps_bindBlock none (h.child (by simp [Node.children]))).bind fun _ _ =>
      (keeps_drain _).bind fun _ _ =>
        (keeps_bindingTy (fun t ht => h.child (by simp [Node.children, Option.mem_def.mp ht])) _
          _).bind fun _ _ => keeps_closeFn _ _ _

/-- Binding a global. -/
theorem keeps_bindGlobal {d : Syntax.LetDecl} (h : (Node.binding d).Wordy) :
    Keeps (bindGlobal d) fun _ => True := by
  refine (keeps_bindExpr (h.child (by simp [Node.children]))).bind fun _ _ =>
    (keeps_drain _).bind fun _ _ =>
      (keeps_bindingTy (fun t ht => h.child (by simp [Node.children, Option.mem_def.mp ht])) _
        _).bind fun ty hty => .of_run (f := fun _ => ()) (fun b => rfl) fun hb => ?_
  exact ⟨hb.vars, List.forall_mem_cons.mpr ⟨hty, hb.globals⟩, hb.fns⟩

/-- Making the items known. -/
theorem keeps_declareItems : ∀ {items : List Syntax.Item} (seen : List String),
    (∀ item ∈ items, item.node.Wordy) → Keeps (declareItems seen items) fun _ => True
  | [], _, _ => .pure trivial
  | item :: items, seen, h => by
    obtain ⟨hitem, hitems⟩ := List.forall_mem_cons.mp h
    have hrest := keeps_declareItems ((itemName item).text :: seen) hitems
    rw [declareItems]
    dsimp only
    split
    · exact (Keeps.throw (Q := fun _ => False) _).bind fun _ h => h.elim
    cases item with
    | function d =>
      refine Keeps.bind (.of_run (f := fun _ => ()) (fun b => rfl) fun hb => ?_) fun _ _ => hrest
      refine ⟨hb.vars, hb.globals, List.forall_mem_cons.mpr ⟨⟨Ty.allWorded_iff.mpr ?_,
        Ty.worded_map_ofTypeExpr _ fun t ht => hitem.child ?_⟩, hb.fns⟩⟩
      · intro t ht
        obtain ⟨p, hp, rfl⟩ := List.mem_map.mp ht
        exact worded_paramTy (wordy_param hitem p hp) _
      · simp [Syntax.Item.node, Node.children, Option.mem_def.mp ht]
    | binding d =>
      refine Keeps.bind (.of_run (f := fun _ => ()) (fun b => rfl) fun hb => ?_) fun _ _ => hrest
      refine ⟨hb.vars, List.forall_mem_cons.mpr ⟨Ty.worded_map_ofTypeExpr _ fun t ht =>
        hitem.child ?_, hb.globals⟩, hb.fns⟩
      simp [Syntax.Item.node, Node.children, Option.mem_def.mp ht]

/-- Binding some functions or globals. -/
theorem keeps_forM {α : Type} {f : α → Bind Unit} : ∀ {as : List α},
    (∀ a ∈ as, Keeps (f a) fun _ => True) → Keeps (as.forM f) fun _ => True
  | [], _ => .pure trivial
  | a :: _, h => (h a List.mem_cons_self).bind fun _ _ =>
      keeps_forM fun a' ha => h a' (List.mem_cons_of_mem _ ha)

/-- Binding a module. -/
theorem keeps_bindItems {m : Syntax.Module} (h : (Node.root m).Wordy) :
    Keeps (bindItems m) fun _ => True := by
  have hitem (item : Syntax.Item) (hi : item ∈ m.items) : item.node.Wordy :=
    h.child (List.mem_map_of_mem hi)
  refine (keeps_declareItems [] hitem).bind fun _ _ =>
    (keeps_forM fun d hd => keeps_bindFn (hitem _ (mem_functions.mp hd))).bind fun _ _ => ?_
  split
  · exact .pure trivial
  · exact (keeps_openFn _ _ _ _).bind fun _ _ =>
      (keeps_forM fun d hd => keeps_bindGlobal (hitem _ (mem_globals.mp hd))).bind fun _ _ =>
        keeps_closeFn _ _ _

end Binding

/-- The variables of a tree have words as names, and types that a source can state or show. -/
def ScopeTree.Worded (t : ScopeTree) : Prop :=
  ∀ x ∈ t.vars, isName x.name = true ∧ x.ty.Worded

/-- Those of the tree of a source do. -/
theorem worded_of_source {src unit : String} {m : Syntax.Module} {t : ScopeTree}
    (hm : Syntax.parse src = .ok m) (ht : bindModule m unit = .ok t) : t.Worded := by
  unfold bindModule Binding.bindState at ht
  cases hrun : (Binding.bindItems m).run .empty with
  | error e => rw [hrun] at ht; cases ht
  | ok q =>
    rw [hrun] at ht
    cases ht
    have hempty : Binding.State.empty.Worded := ⟨nofun, nofun, nofun⟩
    exact (Binding.keeps_bindItems (Syntax.wordy_of_parse hm) _ _ _ hempty hrun).1.vars

end ClosureEnv
