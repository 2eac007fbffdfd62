import ClosureEnv.Proofs.Binding.Bodies

/-!
# Binding gives well-scoped bodies

Each part of a body that is bound is a part that is well-scoped at the end of binding. The induction
is on the source, with a case for each construct.
-/

namespace ClosureEnv.Binding

open State ClosureEnv.Bound

variable {P : String → Prop} {u : String}

/-- What binding an expression promises. -/
abbrev ExprPart (P : String → Prop) (u : String) (b b' : State) (x : Expr)
    (ss : List Source) : Prop :=
  Valued P u b b' x.binds ss fun F =>
    x.Scoped (F.finish u) F.Holds b.currentScope (F.Seen u b)

/-- What binding an optional expression promises. -/
abbrev OptionPart (P : String → Prop) (u : String) (b b' : State) (x : Option Expr)
    (ss : List Source) : Prop :=
  Valued P u b b' (optionBinds x) ss fun F =>
    optionScoped (F.finish u) F.Holds b.currentScope (F.Seen u b) x

/-- What binding statements promises: also that they make visible what they declare. -/
abbrev StmtsPart (P : String → Prop) (u : String) (b b' : State) (xs : List Stmt) : Prop :=
  Part P u b b' (stmtsBinds xs) fun F =>
    stmtsScoped (F.finish u) F.Holds b.currentScope (F.Seen u b) xs ∧
      ∀ v, F.Seen u b' v → after (F.Seen u b) xs v

/-- What binding a statement promises. -/
abbrev StmtPart (P : String → Prop) (u : String) (b b' : State) (x : Stmt) : Prop :=
  Part P u b b' x.binds fun F =>
    x.Scoped (F.finish u) F.Holds b.currentScope (F.Seen u b) ∧
      ∀ v, F.Seen u b' v → after (F.Seen u b) [x] v

/-- What binding the contents of a block in the current scope promises. -/
abbrev BlockPart (P : String → Prop) (u : String) (b b' : State) (x : Block) : Prop :=
  Part P u b b' x.binds fun F =>
    x.Scoped (F.finish u) F.Holds b.currentScope (F.Seen u b)

variable {b b' b'' : State}

/-- Statements and a value after them make a block. -/
theorem StmtsPart.block {xs : List Stmt} {tail : Option Expr} {ss : List Source}
    (h : StmtsPart P u b b' xs) (ht : OptionPart P u b' b'' tail ss) :
    BlockPart P u b b'' (.mk none xs tail) :=
  (h.append ht.toPart).imp fun F _ _ ⟨⟨hxs, hvis⟩, hts⟩ => by
    rw [h.currentScope] at hts
    exact ⟨hxs, optionScoped_mono hvis tail hts⟩

/-- A block that is bound in a scope of its own. -/
theorem BlockPart.scoped {xs : List Stmt} {tail : Option Expr} {ss : List Source} (h : b.Inv P)
    (hf : b.frames ≠ []) {k : ScopeKind} (hk : k ≠ .function) (hk' : k ≠ .closure)
    {span : Syntax.Span} (hb : BlockPart P u (b.opened k none span) b' (.mk none xs tail))
    (hr : ∀ s ∈ ss, s.InRange b'.vars.size b'.closures.size) :
    Valued P u b b'.closed (Block.mk (some b.scopes.size) xs tail).binds ss fun F =>
      (Block.mk (some b.scopes.size) xs tail).Scoped (F.finish u) F.Holds b.currentScope
        (F.Seen u b) ∧ Opens (F.finish u) b.currentScope b.scopes.size k :=
  (Part.enclosed h hf hk hk' hb hr).imp fun F _ _ ⟨hscoped, hopens⟩ => by
    rw [seen_opened] at hscoped
    exact ⟨hscoped, hopens⟩

/-- A declaration with a bound value. -/
theorem StmtPart.bind {value : Expr} {ss : List Source} {name : String} {ty : Ty} {isMut : Bool}
    {span : Syntax.Span} (hf : b.frames ≠ []) (h : ExprPart P u b b' value ss)
    (hs : value.sources = ss) (hname : P name) :
    StmtPart P u b ((b'.declared name ty isMut false span).stored b'.vars.size ss)
      (.bind b'.vars.size value) := by
  have hd := Part.declared (u := u) h.inv (h.frames_ne hf) hname ty isMut false span
  have hr : ∀ s ∈ ss, s.InRange (b'.declared name ty isMut false span).vars.size
      (b'.declared name ty isMut false span).closures.size := h.in_range_later hd.grows
  have hst := Step.stored (u := u) hd.inv b'.vars.size hr
  refine ((h.toPart.append hd).step hst).imp fun F hF hg ⟨hv, hx⟩ => ⟨⟨hv, ?_, ?_⟩, fun v hvis => ?_⟩
  · rw [h.currentScope] at hx
    exact hx
  · refine hs ▸ hF.inv.mayHold fun x hx => hg.stored _ x ?_
    exact hd.inv.mem_sourcesOf_stored (by simp [State.declared]) hx
  · have hvis' : F.Seen u (b'.declared name ty isMut false span) v := hvis
    rcases seen_declared hvis' with hvis | rfl
    · rw [h.seen_eq] at hvis
      exact .inl hvis
    · exact .inr (by simp [Stmt.declared])

mutual

/-- Binding an expression. -/
theorem bindExpr_spec : ∀ (e : Syntax.Expr) {b b' : State} {x : Expr} {ss : List Source},
    e.Named P → b.Inv P → b.frames ≠ [] → (bindExpr e).run b = .ok ((x, ss), b') →
    x.sources = ss ∧ ExprPart P u b b' x ss
  | .lit value _, b, b', x, ss, _, h, _, hrun => by
    rw [bindExpr, run_pure_eq_ok] at hrun
    cases hrun
    exact ⟨rfl, { Part.ofStep (Step.refl h) fun _ _ _ => trivial with
      same := rfl, in_range := nofun }⟩
  | .var name, b, b', x, ss, _, h, _, hrun => by
    rw [bindExpr] at hrun
    exact resolve_spec h hrun
  | .paren inner _, b, b', x, ss, hn, h, hf, hrun => by
    rw [bindExpr] at hrun
    exact bindExpr_spec inner hn h hf hrun
  | .unary op operand _, b, b', x, ss, hn, h, hf, hrun => by
    obtain ⟨y, ts, h₁, rfl, rfl⟩ := bindExpr_unary_run hrun
    exact ⟨rfl, (bindExpr_spec operand hn h hf h₁).2.dropSources⟩
  | .binary op lhs rhs _, b, b', x, ss, hn, h, hf, hrun => by
    obtain ⟨l, r, ts, us, b₁, h₁, h₂, rfl, rfl⟩ := bindExpr_binary_run hrun
    have hl := (bindExpr_spec lhs hn.1 h hf h₁).2
    have hr := (bindExpr_spec rhs hn.2 hl.inv (hl.frames_ne hf) h₂).2
    refine ⟨rfl, (hl.append hr).dropSources.imp fun F _ _ hlr => ?_⟩
    rwa [hl.currentScope, hl.seen_eq] at hlr
  | .call callee args _, b, b', x, ss, hn, h, hf, hrun => by
    obtain ⟨f, ts, xs, b₁, h₁, h₂, rfl, rfl⟩ := bindExpr_call_run hrun
    have hc := (bindExpr_spec callee hn.1 h hf h₁).2
    have hxs := bindArgs_spec args hn.2 hc.inv (hc.frames_ne hf) h₂
    refine ⟨rfl, (hc.append hxs).dropSources.imp fun F _ _ hcx => ?_⟩
    rwa [hc.currentScope, hc.seen_eq] at hcx
  | .block body, b, b', x, ss, hn, h, hf, hrun => by
    obtain ⟨y, b₁, h₁, rfl, rfl⟩ := bindExpr_block_run hrun
    obtain ⟨hs, hsc, hb⟩ := bindScoped_spec .block body (by decide) (by decide) hn h hf h₁
    refine ⟨hs, (hb.drain _ rfl).imp fun F hF _ ⟨⟨hscoped, hopens⟩, hsink⟩ => ?_⟩
    rw [hsc] at hsink
    exact ⟨hscoped, _, hsc, hopens, hs ▸ hF.inv.mayLeave hsink⟩
  | .cond test yes no _, b, b', x, ss, hn, h, hf, hrun => by
    obtain ⟨c, ts, y, us, n, vs, b₁, b₂, h₁, h₂, h₃, rfl, rfl⟩ := bindExpr_cond_run hrun
    have hc := (bindExpr_spec test hn.1 h hf h₁).2
    obtain ⟨hs, hsc, hy⟩ := bindScoped_spec .block yes (by decide) (by decide) hn.2.1
      hc.inv (hc.frames_ne hf) h₂
    have hyd := hy.drain (.within (y.scope.getD 0) us) rfl
    obtain ⟨hns, hno⟩ := bindOption_spec no hn.2.2 hyd.inv
      (hyd.frames_ne (hc.frames_ne hf)) h₃
    refine ⟨by rw [Expr.sources, hs, hns],
      (hc.dropSources.append (hyd.append hno)).imp fun F hF hg ⟨hcs, ⟨⟨hys, ho⟩, hsink⟩, hnos⟩ => ?_⟩
    rw [hyd.currentScope, hyd.seen_eq, hc.currentScope, hc.seen_eq] at hnos
    rw [hc.currentScope, hc.seen_eq] at hys
    rw [hc.currentScope] at ho
    rw [hsc] at hsink
    exact ⟨hcs, hys, ⟨_, hsc, ho, hs ▸ hF.inv.mayLeave hsink⟩, hnos⟩
  | .loop test body _, b, b', x, ss, hn, h, hf, hrun => by
    obtain ⟨c, ts, y, us, b₁, h₁, h₂, rfl, rfl⟩ := bindExpr_loop_run hrun
    have hc := (bindExpr_spec test hn.1 h hf h₁).2
    obtain ⟨hs, hsc, hy⟩ := bindScoped_spec .loop body (by decide) (by decide) hn.2
      hc.inv (hc.frames_ne hf) h₂
    refine ⟨rfl, (hc.append hy).dropSources.imp fun F _ _ ⟨hcs, hys, ho⟩ => ?_⟩
    rw [hc.currentScope, hc.seen_eq] at hys
    rw [hc.currentScope] at ho
    exact ⟨hcs, hys, _, hsc, ho⟩
  | .closure params body span, b, b', x, ss, hn, h, hf, hrun => by
    obtain ⟨vs, y, ts, b₁, b₂, hps, hbody, rfl, rfl, rfl⟩ := bindExpr_closure_run hrun
    obtain ⟨hinv, hne⟩ := declareParams_inv hn.1 h hf hps
    cases hbody with
    | block hinner h₂ =>
      obtain ⟨⟨xs, tail, rfl⟩, hs, hy, hr⟩ := bindInner_spec body hinner hn.2 hinv hne h₂
      exact ⟨rfl, literal_spec h hf hn.1 hps hy hs hr⟩
    | expr _ h₂ =>
      obtain ⟨hs, hy⟩ := bindExpr_spec body hn.2 hinv hne h₂
      exact ⟨rfl, literal_spec h hf hn.1 hps (hy.toPart.imp fun F _ _ he => he.body) hs
        hy.in_range⟩

/-- Binding the contents of a block that is the body of a closure. -/
theorem bindInner_spec : ∀ (e : Syntax.Expr) {inner : Syntax.Block} {b b' : State} {x : Block}
    {ss : List Source}, e = .block inner → e.Named P → b.Inv P → b.frames ≠ [] →
    (bindBlock none inner).run b = .ok ((x, ss), b') →
    (∃ xs tail, x = .mk none xs tail) ∧ x.sources = ss ∧ BlockPart P u b b' x ∧
      ∀ s ∈ ss, s.InRange b'.vars.size b'.closures.size
  | .block body, inner, b, b', x, ss, he, hn, h, hf, hrun => by
    cases he
    exact bindBlock_spec body hn h hf hrun
  | .lit .., _, _, _, _, _, he, _, _, _, _ | .var .., _, _, _, _, _, he, _, _, _, _
  | .unary .., _, _, _, _, _, he, _, _, _, _ | .call .., _, _, _, _, _, he, _, _, _, _
  | .binary .., _, _, _, _, _, he, _, _, _, _ | .paren .., _, _, _, _, _, he, _, _, _, _
  | .cond .., _, _, _, _, _, he, _, _, _, _ | .loop .., _, _, _, _, _, he, _, _, _, _
  | .closure .., _, _, _, _, _, he, _, _, _, _ => nomatch he

/-- Binding an optional expression. -/
theorem bindOption_spec : ∀ (e : Option Syntax.Expr) {b b' : State} {x : Option Expr}
    {ss : List Source}, Syntax.optionNamed P e → b.Inv P → b.frames ≠ [] →
    (bindOption e).run b = .ok ((x, ss), b') →
    optionSources x = ss ∧ OptionPart P u b b' x ss
  | none, b, b', x, ss, _, h, _, hrun => by
    rw [bindOption, run_pure_eq_ok] at hrun
    cases hrun
    exact ⟨rfl, { Part.ofStep (Step.refl h) fun _ _ _ => trivial with
      same := rfl, in_range := nofun }⟩
  | some e, b, b', x, ss, hn, h, hf, hrun => by
    obtain ⟨y, h₁, rfl⟩ := bindOption_some_run hrun
    exact bindExpr_spec e hn h hf h₁

/-- Binding the arguments of a call. -/
theorem bindArgs_spec : ∀ (es : List Syntax.Expr) {b b' : State} {xs : List Expr},
    Syntax.exprsNamed P es → b.Inv P → b.frames ≠ [] → (bindArgs es).run b = .ok (xs, b') →
    Valued P u b b' (exprsBinds xs) [] fun F =>
      exprsScoped (F.finish u) F.Holds b.currentScope (F.Seen u b) xs ∧
        ∀ a ∈ xs, AllEscape (F.finish u) F.Holds a.sources
  | [], b, b', xs, _, h, _, hrun => by
    rw [bindArgs, run_pure_eq_ok] at hrun
    cases hrun
    exact { Part.ofStep (Step.refl h) fun _ _ _ => ⟨trivial, nofun⟩ with
      same := rfl, in_range := nofun }
  | e :: es, b, b', xs, hn, h, hf, hrun => by
    obtain ⟨x, ts, ys, b₁, h₁, h₂, rfl⟩ := bindArgs_cons_run hrun
    obtain ⟨hs, hx⟩ := bindExpr_spec e hn.1 h hf h₁
    have hxd := hx.drain (.escape ts) rfl
    have hys := bindArgs_spec es hn.2 hxd.inv (hxd.frames_ne hf) h₂
    refine (hxd.append hys).dropSources.imp fun F hF _ ⟨⟨hxs, hsink⟩, hyss, hesc⟩ => ?_
    rw [hxd.currentScope, hxd.seen_eq] at hyss
    refine ⟨⟨hxs, hyss⟩, fun a ha => ?_⟩
    rcases List.mem_cons.mp ha with rfl | ha
    · exact hs ▸ hF.inv.allEscape hsink
    · exact hesc a ha

/-- Binding a block that opens a scope. -/
theorem bindScoped_spec (k : ScopeKind) : ∀ (body : Syntax.Block) {b b' : State} {x : Block}
    {ss : List Source}, k ≠ .function → k ≠ .closure → body.Named P → b.Inv P → b.frames ≠ [] →
    (bindScoped k body).run b = .ok ((x, ss), b') →
    x.sources = ss ∧ x.scope = some b.scopes.size ∧ Valued P u b b' x.binds ss fun F =>
      x.Scoped (F.finish u) F.Holds b.currentScope (F.Seen u b) ∧
        Opens (F.finish u) b.currentScope b.scopes.size k
  | .mk stmts tail span, b, b', x, ss, hk, hk', hn, h, hf, hrun => by
    obtain ⟨xs, t, b₁, b₂, h₁, h₂, rfl, rfl⟩ := bindScoped_run hrun
    have hxs := bindStmts_spec stmts hn.1 (h.opened hf hk hk' span)
      (List.cons_ne_nil _ _) h₁
    obtain ⟨hts, ht⟩ := bindOption_spec tail hn.2 hxs.inv
      (hxs.frames_ne (List.cons_ne_nil _ _)) h₂
    exact ⟨hts, rfl, BlockPart.scoped h hf hk hk' (StmtsPart.block hxs ht) ht.in_range⟩

/-- Binding the contents of a block in the current scope. -/
theorem bindBlock_spec : ∀ (body : Syntax.Block) {b b' : State} {x : Block} {ss : List Source},
    body.Named P → b.Inv P → b.frames ≠ [] → (bindBlock none body).run b = .ok ((x, ss), b') →
    (∃ xs tail, x = .mk none xs tail) ∧ x.sources = ss ∧ BlockPart P u b b' x ∧
      ∀ s ∈ ss, s.InRange b'.vars.size b'.closures.size
  | .mk stmts tail span, b, b', x, ss, hn, h, hf, hrun => by
    obtain ⟨xs, t, b₁, h₁, h₂, rfl⟩ := bindBlock_run hrun
    have hxs := bindStmts_spec stmts hn.1 h hf h₁
    obtain ⟨hts, ht⟩ := bindOption_spec tail hn.2 hxs.inv (hxs.frames_ne hf) h₂
    exact ⟨⟨xs, t, rfl⟩, hts, StmtsPart.block hxs ht, ht.in_range⟩

/-- Binding statements. -/
theorem bindStmts_spec : ∀ (stmts : List Syntax.Stmt) {b b' : State} {xs : List Stmt},
    Syntax.stmtsNamed P stmts → b.Inv P → b.frames ≠ [] →
    (bindStmts stmts).run b = .ok (xs, b') → StmtsPart P u b b' xs
  | [], b, b', xs, _, h, _, hrun => by
    rw [bindStmts, run_pure_eq_ok] at hrun
    cases hrun
    exact .ofStep (Step.refl h) fun _ _ _ => ⟨trivial, fun _ => .inl⟩
  | s :: stmts, b, b', xs, hn, h, hf, hrun => by
    obtain ⟨x, ys, b₁, h₁, h₂, rfl⟩ := bindStmts_cons_run hrun
    have hx := bindStmt_spec s hn.1 h hf h₁
    have hys := bindStmts_spec stmts hn.2 hx.inv (hx.frames_ne hf) h₂
    refine (hx.append hys).imp fun F _ _ ⟨⟨hxs, hvis⟩, hyss, hvis'⟩ => ?_
    rw [hx.currentScope] at hyss
    refine ⟨⟨hxs, stmtsScoped_mono hvis ys hyss⟩, fun v hv => ?_⟩
    rw [after_cons]
    exact after_mono hvis ys v (hvis' v hv)

/-- Binding a statement. -/
theorem bindStmt_spec : ∀ (s : Syntax.Stmt) {b b' : State} {x : Stmt},
    s.Named P → b.Inv P → b.frames ≠ [] → (bindStmt s).run b = .ok (x, b') → StmtPart P u b b' x
  | .bind isMut name stated value span, b, b', x, hn, h, hf, hrun => by
    obtain ⟨y, ts, ty, b₁, h₁, -, rfl, rfl⟩ := bindStmt_bind_run hrun
    obtain ⟨hs, hy⟩ := bindExpr_spec value hn.2 h hf h₁
    exact StmtPart.bind hf hy hs hn.1
  | .assign target value span, b, b', x, hn, h, hf, hrun => by
    obtain ⟨y, ts, b₁, h₁, hrun⟩ := bindStmt_assign_run hrun
    obtain ⟨rfl, hy⟩ := bindExpr_spec value hn h hf h₁
    obtain ⟨place, rfl, ha⟩ := assign_spec (u := u) hy.inv hy.in_range hrun
    have hpart := hy.append ha
    rw [List.append_nil] at hpart
    refine hpart.toPart.imp fun F _ _ ⟨hys, has⟩ => ⟨?_, fun v hv => .inl ?_⟩
    · cases place with
      | var v =>
        rw [hy.seen_eq] at has
        exact ⟨hys, has⟩
      | global name => exact ⟨hys, has⟩
    · rwa [hpart.seen_eq] at hv
  | .expr value _, b, b', x, hn, h, hf, hrun => by
    obtain ⟨y, ts, h₁, rfl⟩ := bindStmt_expr_run hrun
    have hy := (bindExpr_spec value hn h hf h₁).2
    refine hy.toPart.imp fun F _ _ hys => ⟨hys, fun v hv => .inl ?_⟩
    rwa [hy.seen_eq] at hv
  | .ret none _, b, b', x, _, h, _, hrun => by
    rw [bindStmt, run_pure_eq_ok] at hrun
    cases hrun
    exact .ofStep (Step.refl h) fun _ _ _ => ⟨⟨trivial, nofun⟩, fun _ => .inl⟩
  | .ret (some value) _, b, b', x, hn, h, hf, hrun => by
    obtain ⟨y, ts, b₁, h₁, rfl, rfl⟩ := bindStmt_ret_run hrun
    obtain ⟨hs, hy⟩ := bindExpr_spec value hn h hf h₁
    have hyd := hy.drain (.escape ts) rfl
    refine hyd.toPart.imp fun F hF _ ⟨hys, hsink⟩ =>
      ⟨⟨hys, ?_⟩, fun v hv => .inl (by rwa [hyd.seen_eq] at hv)⟩
    simp only [optionSources]
    exact hs ▸ hF.inv.allEscape hsink

end

end ClosureEnv.Binding
