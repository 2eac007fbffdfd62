import ClosureEnv.Proofs.Binding.Names
import ClosureEnv.Proofs.Bound.Opened

/-!
# Binding opens every scope once

A step of binding that adds scopes accounts for them: each is opened by what was bound, or by one of
the closures that were added (`Opening`). The induction is on the source. It is apart from that of
`Scoping`, as it needs nothing of what is known of scopes otherwise.
-/

namespace ClosureEnv.Binding

open State ClosureEnv.Bound

variable {b b' b'' : State} {xs ys : List ScopeId}

/-- What the closures so far open, closure by closure. -/
def State.closureOpens (b : State) : List (List ScopeId) :=
  b.closures.toList.map Closure.opens

/-- A closure that is opened opens its own scope. -/
theorem State.closureOpens_openedClosure (b : State) (span : Syntax.Span) :
    (b.openedClosure span).closureOpens = b.closureOpens ++ [[b.scopes.size]] := by
  unfold closureOpens State.openedClosure
  dsimp only
  rw [Array.toList_push, List.map_append]
  rfl

/-- A closure that is ended opens the scopes of its body as well. -/
theorem State.closureOpens_finished {c : Nat} {s : ScopeId} {rest : List ScopeId}
    (hc : b.closureOpens[c]? = some (s :: rest)) (params : List VarId) (body : Expr)
    (ss : List Source) :
    (b.finished c params body ss).closureOpens = b.closureOpens.set c (s :: body.opens) := by
  rw [closureOpens, List.getElem?_map, Array.getElem?_toList] at hc
  obtain ⟨k, hk, hopens⟩ := Option.map_eq_some_iff.mp hc
  refine List.ext_getElem? fun i => ?_
  rw [closureOpens, closureOpens, List.getElem?_map, Array.getElem?_toList, getElem?_finished,
    List.getElem?_set, List.getElem?_map, Array.getElem?_toList, List.length_map,
    Array.length_toList]
  split
  · next hi =>
    rw [if_pos (Array.getElem?_eq_some_iff.mp hk).1, ← hi, hk]
    simp [Closure.opens, (List.cons.inj hopens).1]
  · rfl

/-- A step inside a function: the scopes that it adds are those in `xs`, which what was bound opens,
and those that the new closures open. -/
structure Opening (b b' : State) (xs : List ScopeId) : Prop where
  opened : ∃ more, b'.closureOpens = b.closureOpens ++ more ∧
    (List.range b.scopes.size ++ (xs ++ more.flatten)).Perm (List.range b'.scopes.size)
  /-- No closure mentions a variable twice. -/
  freeVars : (∀ k ∈ b.closures, k.freeVars.Nodup) → ∀ k ∈ b'.closures, k.freeVars.Nodup
  fns : b'.fns = b.fns
  globals : b'.globals = b.globals
  scope : b'.current.scope = b.current.scope
  isSynthetic : b'.current.isSynthetic = b.current.isSynthetic

namespace Opening

/-- A step that adds neither scopes nor closures. -/
theorem of_eq (hscopes : b'.scopes = b.scopes) (hclosures : b'.closures = b.closures)
    (hfns : b'.fns = b.fns) (hglobals : b'.globals = b.globals)
    (hcurrent : b'.current = b.current) : Opening b b' [] where
  opened := ⟨[], by simp [closureOpens, hclosures], by simp [hscopes]⟩
  freeVars := hclosures ▸ id
  fns := hfns
  globals := hglobals
  scope := by rw [hcurrent]
  isSynthetic := by rw [hcurrent]

/-- No step. -/
theorem refl (b : State) : Opening b b [] :=
  of_eq rfl rfl rfl rfl rfl

/-- One step after another. -/
theorem trans (h : Opening b b' xs) (h' : Opening b' b'' ys) : Opening b b'' (xs ++ ys) where
  opened := by
    obtain ⟨more, hmore, hperm⟩ := h.opened
    obtain ⟨more', hmore', hperm'⟩ := h'.opened
    refine ⟨more ++ more', by rw [hmore', hmore, List.append_assoc], ?_⟩
    refine List.Perm.trans ?_ ((hperm.append_right (ys ++ more'.flatten)).trans hperm')
    simp only [List.flatten_append, List.append_assoc]
    refine List.Perm.append_left _ (List.Perm.append_left _ ?_)
    rw [← List.append_assoc, ← List.append_assoc]
    exact List.perm_append_comm.append_right _
  freeVars := h'.freeVars ∘ h.freeVars
  fns := h'.fns.trans h.fns
  globals := h'.globals.trans h.globals
  scope := h'.scope.trans h.scope
  isSynthetic := h'.isSynthetic.trans h.isSynthetic

/-- A step that adds nothing, after another. -/
theorem before (h : Opening b b' xs) (h' : Opening b' b'' []) : Opening b b'' xs :=
  List.append_nil xs ▸ h.trans h'

/-- A step that adds nothing, before another. -/
theorem after (h : Opening b b' []) (h' : Opening b' b'' xs) : Opening b b'' xs :=
  h.trans h'

/-- Noting a sink. -/
theorem drainedBy (b : State) (sink : Sink) : Opening b (b.drainedBy sink) [] :=
  of_eq rfl rfl rfl rfl rfl

/-- Noting that a closure mentions a variable. -/
theorem mentioned (b : State) (c : ClosureId) (v : VarId) : Opening b (b.mentioned c v) [] where
  opened := by
    refine ⟨[], ?_, by simp [State.mentioned]⟩
    rw [List.append_nil, closureOpens, closureOpens]
    refine List.ext_getElem? fun i => ?_
    rw [List.getElem?_map, List.getElem?_map, Array.getElem?_toList, Array.getElem?_toList]
    rw [getElem?_mentioned]
    split
    · cases b.closures[i]? with
      | none => rfl
      | some k =>
        rw [Option.map_some, Option.map_some, Option.map_some]
        split <;> rfl
    · rfl
  freeVars h k hk := by
    obtain ⟨i, hi⟩ := Array.mem_iff_getElem?.mp hk
    rw [getElem?_mentioned] at hi
    split at hi
    · obtain ⟨l, hl, rfl⟩ := Option.map_eq_some_iff.mp hi
      have hnodup := h l (Array.mem_of_getElem? hl)
      split
      · exact hnodup
      · next hnot =>
        refine List.nodup_append.mpr ⟨hnodup, List.nodup_singleton v, fun w hw x hx hwx => ?_⟩
        obtain rfl := List.mem_singleton.mp hx
        exact hnot (List.contains_iff_mem.mpr (hwx ▸ hw))
    · exact h k (Array.mem_of_getElem? hi)
  fns := rfl
  globals := rfl
  scope := rfl
  isSynthetic := rfl

/-- Noting a use. -/
theorem used (b : State) (v : VarId) : Opening b (b.used v) [] := by
  unfold State.used
  split
  · exact refl b
  · split
    · exact mentioned b _ v
    · exact refl b

/-- A step inside a block or a loop, seen from outside once the scope is closed. -/
theorem enclosed {kind : ScopeKind} {span : Syntax.Span}
    (h : Opening (b.opened kind none span) b' xs) : Opening b b'.closed (b.scopes.size :: xs) where
  opened := by
    obtain ⟨more, hmore, hperm⟩ := h.opened
    refine ⟨more, hmore, List.Perm.trans ?_ hperm⟩
    rw [show (b.opened kind none span).scopes.size = b.scopes.size + 1 from Array.size_push _,
      List.range_succ]
    simp
  freeVars := h.freeVars
  fns := h.fns
  globals := h.globals
  scope := h.scope
  isSynthetic := h.isSynthetic

/-- A step inside a closure, seen from outside once the closure is ended. -/
theorem finished {span : Syntax.Span} {params : List VarId} {body : Expr} {ss : List Source}
    (h : Opening (b.openedClosure span) b' body.opens) :
    Opening b (b'.finished b.closures.size params body ss) [] where
  opened := by
    obtain ⟨more, hmore, hperm⟩ := h.opened
    refine ⟨(b.scopes.size :: body.opens) :: more, ?_, ?_⟩
    · rw [closureOpens_openedClosure, List.append_assoc] at hmore
      have hlen : b.closures.size = b.closureOpens.length := by simp [closureOpens]
      -- So far the closure has opened its own scope only.
      have hget : b'.closureOpens[b.closures.size]? = some [b.scopes.size] := by
        rw [hmore, hlen, List.getElem?_append_right (Nat.le_refl _), Nat.sub_self]
        rfl
      rw [closureOpens_finished hget, hmore, hlen, List.set_append_right _ _ (Nat.le_refl _),
        Nat.sub_self]
      rfl
    · refine List.Perm.trans ?_ hperm
      rw [show (b.openedClosure span).scopes.size = b.scopes.size + 1 from Array.size_push _,
        List.range_succ]
      simp
  freeVars hb := by
    have hopened : ∀ k ∈ (b.openedClosure span).closures, k.freeVars.Nodup := by
      intro k hk
      rcases Array.mem_push.mp hk with hk | rfl
      · exact hb k hk
      · exact .nil
    intro k hk
    obtain ⟨i, hi⟩ := Array.mem_iff_getElem?.mp hk
    rw [getElem?_finished] at hi
    split at hi
    · obtain ⟨l, hl, rfl⟩ := Option.map_eq_some_iff.mp hi
      exact h.freeVars hopened l (Array.mem_of_getElem? hl)
    · exact h.freeVars hopened k (Array.mem_of_getElem? hi)
  fns := h.fns
  globals := h.globals
  scope := h.scope
  isSynthetic := h.isSynthetic

end Opening

/-- Declaring parameters opens nothing. -/
theorem declareParams_opens {f : Syntax.Param → Ty} : ∀ (params : List Syntax.Param) {b b' : State}
    {vs : List VarId},
    (params.mapM (fun p => declare p.name.text (f p) true true p.span) : Bind _).run b =
      .ok (vs, b') → Opening b b' []
  | [], b, b', vs, hrun => by
    cases run_pure_eq_ok.mp hrun
    exact .refl b
  | p :: params, b, b', vs, hrun => by
    obtain ⟨ws, h₂, rfl⟩ := declareParams_cons_run hrun
    have hd : Opening b (b.declared p.name.text (f p) true true p.span) [] :=
      .of_eq rfl rfl rfl rfl rfl
    exact hd.trans (declareParams_opens params h₂)

/-- Resolving a name opens nothing. -/
theorem resolve_opens {name : Syntax.Ident} {x : Expr} {ss : List Source}
    (hrun : (resolve name).run b = .ok ((x, ss), b')) : Opening b b' x.opens := by
  cases resolve_run hrun with
  | @var v => exact .used b v
  | global => exact .refl b
  | fn => exact .refl b

/-- Assigning a value opens nothing. -/
theorem assign_opens {target : Syntax.Ident} {span : Syntax.Span} {value : Expr}
    {sources : List Source} {x : Stmt}
    (hrun : (assign target span value sources).run b = .ok (x, b')) :
    x.opens = value.opens ∧ Opening b b' [] := by
  cases assign_run hrun with
  | @var v => exact ⟨rfl, (Opening.used b v).before (.of_eq rfl rfl rfl rfl rfl)⟩
  | global => exact ⟨rfl, .of_eq rfl rfl rfl rfl rfl⟩

/-- A closure literal opens its scopes in a body of its own. -/
theorem literal_opens {params : List Syntax.Param} {span : Syntax.Span} {b₁ b₂ : State}
    {vs : List VarId} {body : Expr} {ss : List Source}
    (hparams : (declareParams params).run (b.openedClosure span) = .ok (vs, b₁))
    (hbody : Opening b₁ b₂ body.opens) :
    Opening b (b₂.finished b.closures.size vs body ss) [] := by
  rw [declareParams_run] at hparams
  exact .finished ((declareParams_opens params hparams).after hbody)

mutual

/-- Binding an expression. -/
theorem bindExpr_opens : ∀ (e : Syntax.Expr) {b b' : State} {x : Expr} {ss : List Source},
    (bindExpr e).run b = .ok ((x, ss), b') → Opening b b' x.opens
  | .lit value _, b, b', x, ss, hrun => by
    rw [bindExpr, run_pure_eq_ok] at hrun
    cases hrun
    exact .refl b
  | .var name, b, b', x, ss, hrun => by
    rw [bindExpr] at hrun
    exact resolve_opens hrun
  | .paren inner _, b, b', x, ss, hrun => by
    rw [bindExpr] at hrun
    exact bindExpr_opens inner hrun
  | .unary op operand _, b, b', x, ss, hrun => by
    obtain ⟨y, ts, h₁, rfl, rfl⟩ := bindExpr_unary_run hrun
    have hx := bindExpr_opens operand h₁
    exact hx
  | .binary op lhs rhs _, b, b', x, ss, hrun => by
    obtain ⟨l, r, ts, us, b₁, h₁, h₂, rfl, rfl⟩ := bindExpr_binary_run hrun
    exact (bindExpr_opens lhs h₁).trans (bindExpr_opens rhs h₂)
  | .call callee args _, b, b', x, ss, hrun => by
    obtain ⟨f, ts, xs, b₁, h₁, h₂, rfl, rfl⟩ := bindExpr_call_run hrun
    exact (bindExpr_opens callee h₁).trans (bindArgs_opens args h₂)
  | .block body, b, b', x, ss, hrun => by
    obtain ⟨y, b₁, h₁, rfl, rfl⟩ := bindExpr_block_run hrun
    exact (bindScoped_opens .block body h₁).before (.drainedBy b₁ _)
  | .cond test yes no _, b, b', x, ss, hrun => by
    obtain ⟨c, ts, y, us, n, vs, b₁, b₂, h₁, h₂, h₃, rfl, rfl⟩ := bindExpr_cond_run hrun
    have hyes := (bindScoped_opens .block yes h₂).before
      (.drainedBy b₂ (.within (y.scope.getD 0) us))
    exact (bindExpr_opens test h₁).trans (hyes.trans (bindOption_opens no h₃))
  | .loop test body _, b, b', x, ss, hrun => by
    obtain ⟨c, ts, y, us, b₁, h₁, h₂, rfl, rfl⟩ := bindExpr_loop_run hrun
    exact (bindExpr_opens test h₁).trans (bindScoped_opens .loop body h₂)
  | .closure params body span, b, b', x, ss, hrun => by
    obtain ⟨vs, y, ts, b₁, b₂, hps, hbody, rfl, rfl, rfl⟩ := bindExpr_closure_run hrun
    cases hbody with
    | block hinner h₂ => exact literal_opens hps (bindInner_opens body hinner h₂)
    | expr _ h₂ => exact literal_opens hps (bindExpr_opens body h₂)

/-- Binding the contents of a block that is the body of a closure. -/
theorem bindInner_opens : ∀ (e : Syntax.Expr) {inner : Syntax.Block} {b b' : State} {x : Block}
    {ss : List Source}, e = .block inner → (bindBlock none inner).run b = .ok ((x, ss), b') →
    Opening b b' x.opens
  | .block body, inner, b, b', x, ss, he, hrun => by
    cases he
    exact bindBlock_opens body hrun
  | .lit .., _, _, _, _, _, he, _ | .var .., _, _, _, _, _, he, _
  | .unary .., _, _, _, _, _, he, _ | .call .., _, _, _, _, _, he, _
  | .binary .., _, _, _, _, _, he, _ | .paren .., _, _, _, _, _, he, _
  | .cond .., _, _, _, _, _, he, _ | .loop .., _, _, _, _, _, he, _
  | .closure .., _, _, _, _, _, he, _ => nomatch he

/-- Binding an optional expression. -/
theorem bindOption_opens : ∀ (e : Option Syntax.Expr) {b b' : State} {x : Option Expr}
    {ss : List Source}, (bindOption e).run b = .ok ((x, ss), b') → Opening b b' (optionOpens x)
  | none, b, b', x, ss, hrun => by
    rw [bindOption, run_pure_eq_ok] at hrun
    cases hrun
    exact .refl b
  | some e, b, b', x, ss, hrun => by
    obtain ⟨y, h₁, rfl⟩ := bindOption_some_run hrun
    exact bindExpr_opens e h₁

/-- Binding the arguments of a call. -/
theorem bindArgs_opens : ∀ (es : List Syntax.Expr) {b b' : State} {xs : List Expr},
    (bindArgs es).run b = .ok (xs, b') → Opening b b' (exprsOpens xs)
  | [], b, b', xs, hrun => by
    rw [bindArgs, run_pure_eq_ok] at hrun
    cases hrun
    exact .refl b
  | e :: es, b, b', xs, hrun => by
    obtain ⟨x, ts, ys, b₁, h₁, h₂, rfl⟩ := bindArgs_cons_run hrun
    have hx := (bindExpr_opens e h₁).before (.drainedBy b₁ (.escape ts))
    exact hx.trans (bindArgs_opens es h₂)

/-- Binding a block that opens a scope. -/
theorem bindScoped_opens (kind : ScopeKind) : ∀ (body : Syntax.Block) {b b' : State} {x : Block}
    {ss : List Source}, (bindScoped kind body).run b = .ok ((x, ss), b') → Opening b b' x.opens
  | .mk stmts tail span, b, b', x, ss, hrun => by
    obtain ⟨xs, t, b₁, b₂, h₁, h₂, rfl, rfl⟩ := bindScoped_run hrun
    exact .enclosed ((bindStmts_opens stmts h₁).trans (bindOption_opens tail h₂))

/-- Binding the contents of a block in the current scope. -/
theorem bindBlock_opens : ∀ (body : Syntax.Block) {b b' : State} {x : Block} {ss : List Source},
    (bindBlock none body).run b = .ok ((x, ss), b') → Opening b b' x.opens
  | .mk stmts tail _, b, b', x, ss, hrun => by
    obtain ⟨xs, t, b₁, h₁, h₂, rfl⟩ := bindBlock_run hrun
    exact (bindStmts_opens stmts h₁).trans (bindOption_opens tail h₂)

/-- Binding statements. -/
theorem bindStmts_opens : ∀ (stmts : List Syntax.Stmt) {b b' : State} {xs : List Stmt},
    (bindStmts stmts).run b = .ok (xs, b') → Opening b b' (stmtsOpens xs)
  | [], b, b', xs, hrun => by
    rw [bindStmts, run_pure_eq_ok] at hrun
    cases hrun
    exact .refl b
  | s :: stmts, b, b', xs, hrun => by
    obtain ⟨x, ys, b₁, h₁, h₂, rfl⟩ := bindStmts_cons_run hrun
    exact (bindStmt_opens s h₁).trans (bindStmts_opens stmts h₂)

/-- Binding a statement. -/
theorem bindStmt_opens : ∀ (s : Syntax.Stmt) {b b' : State} {x : Stmt},
    (bindStmt s).run b = .ok (x, b') → Opening b b' x.opens
  | .bind isMut name stated value span, b, b', x, hrun => by
    obtain ⟨y, ts, ty, b₁, h₁, -, rfl, rfl⟩ := bindStmt_bind_run hrun
    exact (bindExpr_opens value h₁).before (.of_eq rfl rfl rfl rfl rfl)
  | .assign target value span, b, b', x, hrun => by
    obtain ⟨y, ts, b₁, h₁, hrun⟩ := bindStmt_assign_run hrun
    obtain ⟨hopens, hassign⟩ := assign_opens hrun
    exact hopens ▸ (bindExpr_opens value h₁).before hassign
  | .expr value _, b, b', x, hrun => by
    obtain ⟨y, ts, h₁, rfl⟩ := bindStmt_expr_run hrun
    exact bindExpr_opens value h₁
  | .ret none _, b, b', x, hrun => by
    rw [bindStmt, run_pure_eq_ok] at hrun
    cases hrun
    exact .refl b
  | .ret (some value) _, b, b', x, hrun => by
    obtain ⟨y, ts, b₁, h₁, rfl, rfl⟩ := bindStmt_ret_run hrun
    exact (bindExpr_opens value h₁).before (.drainedBy b₁ _)

end

/-! ## Items -/

/-- The scopes so far are opened by the functions, the globals and the closures so far, but for
those in `rest`, which what is being bound opens. -/
structure State.Opened (b : State) (rest : List ScopeId) : Prop where
  scopes : (rest ++ (b.fns.toList.flatMap Function.opens ++ (b.globals.toList.flatMap (·.init.opens)
    ++ b.closureOpens.flatten))).Perm (List.range b.scopes.size)
  /-- The function that holds the globals has no blocks. -/
  synthetic : ∀ f ∈ b.fns, f.isSynthetic = true → f.body.opens = []
  /-- No closure mentions a variable twice. -/
  freeVars : ∀ k ∈ b.closures, k.freeVars.Nodup

/-- What a step inside a function opens is still to be put into the function. -/
theorem Opening.adds {rest : List ScopeId} (h : Opening b b' xs) (hb : b.Opened rest) :
    b'.Opened (rest ++ xs) where
  scopes := by
    obtain ⟨more, hmore, hperm⟩ := h.opened
    refine List.Perm.trans ?_ ((hb.scopes.append_right (xs ++ more.flatten)).trans hperm)
    rw [h.fns, h.globals, hmore, List.flatten_append, List.perm_iff_count]
    intro a
    simp only [List.count_append]
    omega
  synthetic := h.fns ▸ hb.synthetic
  freeVars := h.freeVars hb.freeVars

/-- Starting a function opens its scope. -/
theorem State.Opened.started (hb : b.Opened []) (name : String) (generics : List String)
    (span : Syntax.Span) (isSynthetic : Bool) :
    (b.started name generics span isSynthetic).Opened [b.scopes.size] where
  scopes := by
    rw [show (b.started name generics span isSynthetic).scopes.size = b.scopes.size + 1 from
      Array.size_push _, List.range_succ]
    exact List.perm_append_comm.trans (hb.scopes.append_right _)
  synthetic := hb.synthetic
  freeVars := hb.freeVars

/-- Ending a function puts what was opened into it. -/
theorem State.Opened.ended {params : List VarId} {ret : Ty} {body : Block}
    (hb : b.Opened (b.current.scope :: body.opens))
    (hbody : b.current.isSynthetic = true → body.opens = []) :
    (b.ended params ret body).Opened [] where
  scopes := by
    refine List.Perm.trans ?_ hb.scopes
    show ((b.fns.push (b.currentFn params ret body)).toList.flatMap Function.opens
      ++ (b.globals.toList.flatMap (·.init.opens) ++ b.closureOpens.flatten)).Perm _
    rw [Array.toList_push, List.flatMap_append, List.flatMap_singleton,
      show (b.currentFn params ret body).opens = b.current.scope :: body.opens from rfl,
      List.perm_iff_count]
    intro a
    simp only [List.count_append]
    omega
  synthetic f hf hsyn := by
    rcases Array.mem_push.mp hf with hf | rfl
    · exact hb.synthetic f hf hsyn
    · exact hbody hsyn
  freeVars := hb.freeVars

/-- Binding a function. -/
theorem bindFn_opens {d : Syntax.FnDecl} {r : Unit} (hb : b.Opened [])
    (hrun : (bindFn d).run b = .ok (r, b')) : b'.Opened [] := by
  obtain ⟨vs, body, ss, ret, b₁, b₂, h₂, h₃, rfl⟩ := bindFn_run hrun
  have hbody := ((declareParams_opens d.params h₂).after (bindBlock_opens d.body h₃)).before
    (.drainedBy b₂ (.escape ss))
  have hopened := hbody.adds (hb.started d.name.text (d.generics.map Syntax.Ident.text) d.span false)
  refine State.Opened.ended ?_ fun hsyn => ?_
  · rw [hbody.scope]
    exact hopened
  · rw [hbody.isSynthetic] at hsyn
    cases hsyn

/-- Binding functions, one after the other. -/
theorem bindFns_opens : ∀ (ds : List Syntax.FnDecl) {b b' : State} {r : Unit}, b.Opened [] →
    (ds.forM bindFn).run b = .ok (r, b') → b'.Opened []
  | [], b, b', r, hb, hrun => by
    cases run_pure_eq_ok.mp hrun
    exact hb
  | d :: ds, b, b', r, hb, hrun => by
    rw [List.forM, run_bind_eq_ok] at hrun
    obtain ⟨_, b₁, h₁, hrun⟩ := hrun
    exact bindFns_opens ds (bindFn_opens hb h₁) hrun

/-- Binding a global. -/
theorem bindGlobal_opens {d : Syntax.LetDecl} {r : ScopeId} {q : Unit} (hb : b.Opened [r])
    (hrun : (bindGlobal d).run b = .ok (q, b')) :
    b'.Opened [r] ∧ b'.current.scope = b.current.scope := by
  obtain ⟨init, ss, ty, b₁, h₁, rfl⟩ := bindGlobal_run hrun
  have hinit := bindExpr_opens d.value h₁
  have hopened := hinit.adds hb
  refine ⟨⟨List.Perm.trans ?_ hopened.scopes, hopened.synthetic, hopened.freeVars⟩, hinit.scope⟩
  show ([r] ++ (b₁.fns.toList.flatMap Function.opens
    ++ ((b₁.globals.push _).toList.flatMap (·.init.opens) ++ b₁.closureOpens.flatten))).Perm _
  rw [Array.toList_push, List.flatMap_append, List.flatMap_singleton, List.perm_iff_count]
  intro a
  simp only [List.count_append]
  omega

/-- Binding globals, one after the other. -/
theorem bindGlobals_opens {r : ScopeId} : ∀ (ds : List Syntax.LetDecl) {b b' : State} {q : Unit},
    b.Opened [r] → (ds.forM bindGlobal).run b = .ok (q, b') →
    b'.Opened [r] ∧ b'.current.scope = b.current.scope
  | [], b, b', q, hb, hrun => by
    cases run_pure_eq_ok.mp hrun
    exact ⟨hb, rfl⟩
  | d :: ds, b, b', q, hb, hrun => by
    rw [List.forM, run_bind_eq_ok] at hrun
    obtain ⟨_, b₁, h₁, hrun⟩ := hrun
    obtain ⟨hb₁, hscope⟩ := bindGlobal_opens hb h₁
    obtain ⟨hb', hscope'⟩ := bindGlobals_opens ds hb₁ hrun
    exact ⟨hb', hscope'.trans hscope⟩

/-- Binding a module. -/
theorem bindState_opens {m : Syntax.Module} {F : State} (hF : bindState m = .ok F) :
    F.Opened [] := by
  obtain ⟨b₀, b₁, h₀, h₁, hglobals⟩ := bindState_run hF
  obtain ⟨⟨ft, gt, rfl⟩, -⟩ := declareItems_spec m.items h₀
  have hb := bindFns_opens _ ⟨by simp [State.empty, closureOpens], by simp [State.empty],
    by simp [State.empty]⟩ h₁
  rcases hglobals with ⟨-, rfl⟩ | ⟨-, b₃, h₃, rfl⟩
  · exact hb
  · obtain ⟨hb₃, hscope⟩ := bindGlobals_opens _ (hb.started moduleFn [] m.span true) h₃
    refine State.Opened.ended ?_ fun _ => rfl
    rw [hscope]
    exact hb₃

/-- In the tree of a module every scope is opened once, the function that holds the globals has no
blocks, and no closure mentions a variable twice. -/
theorem opensOnce_of_bindModule {unit : String} {m : Syntax.Module} {t : ScopeTree}
    (ht : bindModule m unit = .ok t) : t.OpensOnce ∧
      (∀ f ∈ t.fns, f.isSynthetic = true → f.body.opens = []) ∧
      ∀ k ∈ t.closures, k.freeVars.Nodup := by
  obtain ⟨F, hF, rfl⟩ := exists_of_bindModule ht
  have hopened := bindState_opens hF
  refine ⟨?_, hopened.synthetic, fun k hk => ?_⟩
  · have hclosures : (F.finish unit).closures.toList.flatMap Closure.opens =
        F.closureOpens.flatten := by
      rw [closureOpens, ← List.flatMap_def, State.finish, Array.toList_map, List.flatMap_map]
      rfl
    rw [ScopeTree.OpensOnce, hclosures, List.append_assoc]
    exact hopened.scopes
  · obtain ⟨l, hl, rfl⟩ := Array.mem_map.mp hk
    exact hopened.freeVars l hl

end ClosureEnv.Binding
