import ClosureEnv.Proofs.Local.Parts

/-!
# Bodies in two runs

Expressions that are the same but for where they are written, bound in states that are twins: the
induction is on the one of them, and the other has the same shape.
-/

namespace ClosureEnv.Binding

open Syntax

variable {names : String → Prop} {β γ b c b' c' : State} {known : List String}

/-- What both runs come to when they bind the contents of a block. -/
structure BlockMoved (names : String → Prop) (β γ b : State) (x y : Bound.Block)
    (ss ts : List Source) (b' c' : State) : Prop extends Moved names β γ b [] b' c' where
  typed : SameTy names β γ b.closures.size (fun b types => b.inferBlock types x)
    fun b types => b.inferBlock types y
  sources : List.Forall₂ (SourceTwin β γ) ss ts

/-- Opening a scope hides no name. -/
theorem knows_opened (hk : Knows b known) (kind : ScopeKind) (closure : Option ClosureId)
    (span : Span) : Knows (b.opened kind closure span) known :=
  fun n hn => hk n hn

/-- A block that has a scope of its own, seen from outside. -/
theorem BlockMoved.scoped {kind : ScopeKind} {span : Span} {x y : Bound.Block}
    {ss ts : List Source}
    (hblock : BlockMoved names β γ (b.opened kind none span) x y ss ts b' c') :
    BlockTwin names β γ b x y ss ts b'.closed c'.closed :=
  ⟨hblock.twin.closed, hblock.outer, hblock.grows, hblock.typed, hblock.sources⟩

/-- A closure whose parameters and body were bound. -/
theorem Twin.closure (h : Twin names β γ b c) {span : Span} {b₁ c₁ b₂ c₂ : State}
    {vs ws : List VarId} (hparams : Moved names β γ (b.openedClosure span) known b₁ c₁)
    (hvw : List.Forall₂ (VarTwin β γ) vs ws) {x y : Bound.Expr} {ss ts : List Source}
    (hbody : Moved names β γ b₁ [] b₂ c₂)
    (hxy : TypedAlike names β γ b₁.closures.size x y)
    (hst : List.Forall₂ (SourceTwin β γ) ss ts) :
    ExprTwin names β γ b (.closure b.closures.size) (.closure c.closures.size)
      [.closure b.closures.size] [.closure c.closures.size]
      (b₂.finished b.closures.size vs x ss) (c₂.finished c.closures.size ws y ts) := by
  have hfirst : b.closures.size + 1 ≤ b₁.closures.size := by
    simpa [State.openedClosure] using hparams.grows
  refine ⟨hbody.twin.finished h.closure_next hvw (hxy.mono hfirst) hst,
    hbody.outer.trans hparams.outer, ?_, fun _ _ _ _ _ _ htypes => ?_, .cons h.closure_next .nil⟩
  · simp only [State.finished, State.recorded, Array.size_modify]
    exact Nat.le_trans (Nat.le_of_succ_le hfirst) hbody.grows
  · exact htypes _ _ (Nat.le_refl _) h.closure_next

/-- What is the same as a block but for where it is written is a block. -/
theorem exists_block_of_spanless {e e' : Expr} {body : Block} (hs : e.spanless = e'.spanless)
    (he : e = .block body) : ∃ body', e' = .block body' := by
  subst he
  cases e' with
  | block body' => exact ⟨body', rfl⟩
  | _ => simp [Expr.spanless] at hs

mutual

/-- An expression is bound to the same. -/
theorem bindExpr_twin : ∀ (e e' : Expr) {known : List String} {b c b' c' : State}
    {x y : Bound.Expr} {ss ts : List Source}, e.spanless = e'.spanless →
    (∀ n ∈ e.outer known, names n) → Knows b known → b.frames ≠ [] → Twin names β γ b c →
    (bindExpr e).run b = .ok ((x, ss), b') → (bindExpr e').run c = .ok ((y, ts), c') →
    ExprTwin names β γ b x y ss ts b' c'
  | .lit v _, e', known, b, c, b', c', x, y, ss, ts, hs, hn, hk, hf, h, hb, hc => by
    cases e' with
    | lit v' _ =>
      simp only [Expr.spanless, Expr.lit.injEq] at hs
      rw [bindExpr, run_pure_eq_ok] at hb hc
      cases hb
      cases hc
      exact h.valued fun _ _ _ _ _ _ _ => by rw [State.inferWith, State.inferWith, hs.1]
    | _ => simp [Expr.spanless] at hs
  | .var name, e', known, b, c, b', c', x, y, ss, ts, hs, hn, hk, hf, h, hb, hc => by
    cases e' with
    | var name' =>
      simp only [Expr.spanless, Expr.var.injEq] at hs
      rw [bindExpr] at hb hc
      have htext : name.spanless.text = name'.spanless.text := by rw [hs]
      change name.text = name'.text at htext
      exact resolve_twin htext hn hk h hb hc
    | _ => simp [Expr.spanless] at hs
  | .paren inner _, e', known, b, c, b', c', x, y, ss, ts, hs, hn, hk, hf, h, hb, hc => by
    cases e' with
    | paren inner' _ =>
      simp only [Expr.spanless, Expr.paren.injEq] at hs
      rw [bindExpr] at hb hc
      exact bindExpr_twin inner inner' hs.1 hn hk hf h hb hc
    | _ => simp [Expr.spanless] at hs
  | .unary op operand _, e', known, b, c, b', c', x, y, ss, ts, hs, hn, hk, hf, h, hb, hc => by
    cases e' with
    | unary op' operand' _ =>
      simp only [Expr.spanless, Expr.unary.injEq] at hs
      obtain ⟨rfl, hs, -⟩ := hs
      obtain ⟨x₁, ss₁, hb₁, rfl, rfl⟩ := bindExpr_unary_run hb
      obtain ⟨y₁, ts₁, hc₁, rfl, rfl⟩ := bindExpr_unary_run hc
      exact (bindExpr_twin operand operand' hs hn hk hf h hb₁ hc₁).typed_as
        fun _ _ _ _ _ _ _ => by cases op <;> rfl
    | _ => simp [Expr.spanless] at hs
  | .binary op lhs rhs _, e', known, b, c, b', c', x, y, ss, ts, hs, hn, hk, hf, h, hb, hc => by
    cases e' with
    | binary op' lhs' rhs' _ =>
      simp only [Expr.spanless, Expr.binary.injEq] at hs
      obtain ⟨rfl, hsl, hsr, -⟩ := hs
      rw [Expr.outer, List.forall_mem_append] at hn
      obtain ⟨l, r, ss₁, ss₂, b₁, hb₁, hb₂, rfl, rfl⟩ := bindExpr_binary_run hb
      obtain ⟨l', r', ts₁, ts₂, c₁, hc₁, hc₂, rfl, rfl⟩ := bindExpr_binary_run hc
      have hl := bindExpr_twin lhs lhs' hsl hn.1 hk hf h hb₁ hc₁
      have hr := bindExpr_twin rhs rhs' hsr hn.2 (hl.knows hk) (hl.frames_ne hf) hl.twin hb₂ hc₂
      refine (hl.next hr).typed_as fun b c types types' hvars hknown htypes => ?_
      have hlhs : b.inferWith types l = c.inferWith types' l' :=
        hl.typed b c types types' hvars hknown htypes
      cases op <;> simp only [State.inferWith, hlhs]
    | _ => simp [Expr.spanless] at hs
  | .call callee args _, e', known, b, c, b', c', x, y, ss, ts, hs, hn, hk, hf, h, hb, hc => by
    cases e' with
    | call callee' args' _ =>
      simp only [Expr.spanless, Expr.call.injEq] at hs
      rw [Expr.outer, List.forall_mem_append] at hn
      obtain ⟨f, ss₁, xs, b₁, hb₁, hb₂, rfl, rfl⟩ := bindExpr_call_run hb
      obtain ⟨f', ts₁, ys, c₁, hc₁, hc₂, rfl, rfl⟩ := bindExpr_call_run hc
      have hcallee := bindExpr_twin callee callee' hs.1 hn.1 hk hf h hb₁ hc₁
      have hargs := bindArgs_twin args args' hs.2.1 hn.2 (hcallee.knows hk) (hcallee.frames_ne hf)
        hcallee.twin hb₂ hc₂
      refine (hcallee.next hargs).typed_as fun b c types types' hvars hknown htypes => ?_
      have htype : b.inferWith types f = c.inferWith types' f' :=
        hcallee.typed b c types types' hvars hknown htypes
      rw [State.inferWith, State.inferWith, htype]
    | _ => simp [Expr.spanless] at hs
  | .block body, e', known, b, c, b', c', x, y, ss, ts, hs, hn, hk, hf, h, hb, hc => by
    cases e' with
    | block body' =>
      simp only [Expr.spanless, Expr.block.injEq] at hs
      obtain ⟨x₁, b₁, hb₁, rfl, rfl⟩ := bindExpr_block_run hb
      obtain ⟨y₁, c₁, hc₁, rfl, rfl⟩ := bindExpr_block_run hc
      obtain ⟨hblock, hscope⟩ := bindScoped_twin .block body body' hs hn hk h hb₁ hc₁
      exact hblock.drained (x := .within (x₁.scope.getD 0) ss) (y := .within (y₁.scope.getD 0) ts)
        ⟨hscope, hblock.sources⟩
    | _ => simp [Expr.spanless] at hs
  | .cond test yes no _, e', known, b, c, b', c', x, y, ss, ts, hs, hn, hk, hf, h, hb, hc => by
    cases e' with
    | cond test' yes' no' _ =>
      simp only [Expr.spanless, Expr.cond.injEq] at hs
      rw [Expr.outer, List.forall_mem_append, List.forall_mem_append] at hn
      obtain ⟨x₁, ss₁, x₂, ss₂, x₃, ss₃, b₁, b₂, hb₁, hb₂, hb₃, rfl, rfl⟩ := bindExpr_cond_run hb
      obtain ⟨y₁, ts₁, y₂, ts₂, y₃, ts₃, c₁, c₂, hc₁, hc₂, hc₃, rfl, rfl⟩ := bindExpr_cond_run hc
      have htest := bindExpr_twin test test' hs.1 hn.1 hk hf h hb₁ hc₁
      obtain ⟨hblock, hscope⟩ := bindScoped_twin .block yes yes' hs.2.1 hn.2.1 (htest.knows hk)
        htest.twin hb₂ hc₂
      have hyes := htest.next (hblock.drained (x := .within (x₂.scope.getD 0) ss₂)
        (y := .within (y₂.scope.getD 0) ts₂) ⟨hscope, hblock.sources⟩)
      have hno := hyes.next (bindOption_twin no no' hs.2.2.1 hn.2.2 (hyes.knows hk)
        (hyes.frames_ne hf) hyes.twin hb₃ hc₃)
      exact { hno with
        typed := hyes.typed
        sources := List.rel_append hyes.sources hno.sources }
    | _ => simp [Expr.spanless] at hs
  | .loop test body _, e', known, b, c, b', c', x, y, ss, ts, hs, hn, hk, hf, h, hb, hc => by
    cases e' with
    | loop test' body' _ =>
      simp only [Expr.spanless, Expr.loop.injEq] at hs
      rw [Expr.outer, List.forall_mem_append] at hn
      obtain ⟨x₁, ss₁, x₂, ss₂, b₁, hb₁, hb₂, rfl, rfl⟩ := bindExpr_loop_run hb
      obtain ⟨y₁, ts₁, y₂, ts₂, c₁, hc₁, hc₂, rfl, rfl⟩ := bindExpr_loop_run hc
      have htest := bindExpr_twin test test' hs.1 hn.1 hk hf h hb₁ hc₁
      obtain ⟨hblock, -⟩ := bindScoped_twin .loop body body' hs.2.1 hn.2 (htest.knows hk)
        htest.twin hb₂ hc₂
      exact (htest.next hblock).typed_as fun _ _ _ _ _ _ _ => rfl
    | _ => simp [Expr.spanless] at hs
  | .closure params body span, e', known, b, c, b', c', x, y, ss, ts, hs, hn, hk, hf, h, hb, hc => by
    cases e' with
    | closure params' body' span' =>
      simp only [Expr.spanless, Expr.closure.injEq] at hs
      obtain ⟨vs, x₂, ss₂, b₁, b₂, hps, hbody, rfl, rfl, rfl⟩ := bindExpr_closure_run hb
      obtain ⟨ws, y₂, ts₂, c₁, c₂, hqs, hbody', rfl, rfl, rfl⟩ := bindExpr_closure_run hc
      rw [declareParams_run] at hps hqs
      have hgenerics := h.generics
      obtain ⟨hparams, hvw⟩ := declareParams_twin params params' hs.1 (h.openedClosure span span')
        (List.cons_ne_nil _ _) (fun n hn => hk n hn) hps (hgenerics ▸ hqs)
      have hne := hparams.frames_ne (List.cons_ne_nil _ _)
      cases hbody with
      -- Whether the body is a block does not depend on spans, so both runs open a scope for it or
      -- neither.
      | block hinner hb₂ =>
        cases hbody' with
        | block hinner' hc₂ =>
          have hinn := bindInner_twin body body' hinner hinner' hs.2.1 hn hparams.knows hne
            hparams.twin hb₂ hc₂
          exact h.closure hparams hvw hinn.toMoved hinn.typed hinn.sources
        | expr hno =>
          obtain ⟨inner, hinner'⟩ := exists_block_of_spanless hs.2.1 hinner
          exact absurd hinner' (hno inner)
      | expr hno hb₂ =>
        cases hbody' with
        | block hinner' =>
          obtain ⟨inner, hinner⟩ := exists_block_of_spanless hs.2.1.symm hinner'
          exact absurd hinner (hno inner)
        | expr _ hc₂ =>
          have hinn := bindExpr_twin body body' hs.2.1 hn hparams.knows hne hparams.twin hb₂ hc₂
          exact h.closure hparams hvw (hinn.moved nofun) hinn.typed hinn.sources
    | _ => simp [Expr.spanless] at hs
termination_by structural part => part

/-- The contents of a block that is the body of a closure are bound to the same. -/
theorem bindInner_twin : ∀ (e e' : Expr) {inner inner' : Block} {known : List String}
    {b c b' c' : State} {x y : Bound.Block} {ss ts : List Source}, e = .block inner →
    e' = .block inner' → e.spanless = e'.spanless → (∀ n ∈ e.outer known, names n) →
    Knows b known → b.frames ≠ [] → Twin names β γ b c →
    (bindBlock none inner).run b = .ok ((x, ss), b') →
    (bindBlock none inner').run c = .ok ((y, ts), c') → BlockMoved names β γ b x y ss ts b' c'
  | .block body, e', inner, inner', known, b, c, b', c', x, y, ss, ts, he, he', hs, hn, hk, hf, h,
      hb, hc => by
    cases he
    cases he'
    simp only [Expr.spanless, Expr.block.injEq] at hs
    exact bindBlock_twin none none body inner' hs hn hk hf h hb hc
  | .lit .., _, _, _, _, _, _, _, _, _, _, _, _, he, _, _, _, _, _, _, _, _
  | .var .., _, _, _, _, _, _, _, _, _, _, _, _, he, _, _, _, _, _, _, _, _
  | .unary .., _, _, _, _, _, _, _, _, _, _, _, _, he, _, _, _, _, _, _, _, _
  | .call .., _, _, _, _, _, _, _, _, _, _, _, _, he, _, _, _, _, _, _, _, _
  | .binary .., _, _, _, _, _, _, _, _, _, _, _, _, he, _, _, _, _, _, _, _, _
  | .paren .., _, _, _, _, _, _, _, _, _, _, _, _, he, _, _, _, _, _, _, _, _
  | .cond .., _, _, _, _, _, _, _, _, _, _, _, _, he, _, _, _, _, _, _, _, _
  | .loop .., _, _, _, _, _, _, _, _, _, _, _, _, he, _, _, _, _, _, _, _, _
  | .closure .., _, _, _, _, _, _, _, _, _, _, _, _, he, _, _, _, _, _, _, _, _ => nomatch he
termination_by structural part => part

/-- An expression that may be there is bound to the same. -/
theorem bindOption_twin : ∀ (e e' : Option Expr) {known : List String} {b c b' c' : State}
    {x y : Option Bound.Expr} {ss ts : List Source}, optionSpanless e = optionSpanless e' →
    (∀ n ∈ optionOuter known e, names n) → Knows b known → b.frames ≠ [] → Twin names β γ b c →
    (bindOption e).run b = .ok ((x, ss), b') → (bindOption e').run c = .ok ((y, ts), c') →
    OptionTwin names β γ b x y ss ts b' c'
  | none, none, known, b, c, b', c', x, y, ss, ts, _, _, _, _, h, hb, hc => by
    rw [bindOption, run_pure_eq_ok] at hb hc
    cases hb
    cases hc
    exact h.valued fun _ _ _ _ _ _ _ => rfl
  | some e, some e', known, b, c, b', c', x, y, ss, ts, hs, hn, hk, hf, h, hb, hc => by
    rw [optionSpanless, optionSpanless, Option.some.injEq] at hs
    obtain ⟨x₁, hb₁, rfl⟩ := bindOption_some_run hb
    obtain ⟨y₁, hc₁, rfl⟩ := bindOption_some_run hc
    exact bindExpr_twin e e' hs hn hk hf h hb₁ hc₁
  | none, some _, _, _, _, _, _, _, _, _, _, hs, _, _, _, _, _, _
  | some _, none, _, _, _, _, _, _, _, _, _, hs, _, _, _, _, _, _ => by simp [optionSpanless] at hs
termination_by structural part => part

/-- Arguments are bound to the same. -/
theorem bindArgs_twin : ∀ (es es' : List Expr) {known : List String} {b c b' c' : State}
    {xs ys : List Bound.Expr}, exprsSpanless es = exprsSpanless es' →
    (∀ n ∈ exprsOuter known es, names n) → Knows b known → b.frames ≠ [] → Twin names β γ b c →
    (bindArgs es).run b = .ok (xs, b') → (bindArgs es').run c = .ok (ys, c') →
    Valued₂ names β γ b (fun _ _ => .unknown) (fun _ _ => .unknown) [] [] b' c'
  | [], [], known, b, c, b', c', xs, ys, _, _, _, _, h, hb, hc => by
    rw [bindArgs, run_pure_eq_ok] at hb hc
    cases hb
    cases hc
    exact h.valued fun _ _ _ _ _ _ _ => rfl
  | e :: es, e' :: es', known, b, c, b', c', xs, ys, hs, hn, hk, hf, h, hb, hc => by
    rw [exprsSpanless, exprsSpanless, List.cons.injEq] at hs
    rw [exprsOuter, List.forall_mem_append] at hn
    obtain ⟨x₁, ss₁, xs', b₁, hb₁, hb₂, rfl⟩ := bindArgs_cons_run hb
    obtain ⟨y₁, ts₁, ys', c₁, hc₁, hc₂, rfl⟩ := bindArgs_cons_run hc
    have hvalue := bindExpr_twin e e' hs.1 hn.1 hk hf h hb₁ hc₁
    have hone := hvalue.drained (x := .escape ss₁) (y := .escape ts₁) hvalue.sources
    exact hone.next (bindArgs_twin es es' hs.2 hn.2 (hone.knows hk) (hone.frames_ne hf) hone.twin
      hb₂ hc₂)
  | [], _ :: _, _, _, _, _, _, _, _, hs, _, _, _, _, _, _
  | _ :: _, [], _, _, _, _, _, _, _, hs, _, _, _, _, _, _ => by simp [exprsSpanless] at hs
termination_by structural part => part

/-- A block that opens a scope is bound to the same. -/
theorem bindScoped_twin (kind : ScopeKind) : ∀ (body body' : Block) {known : List String}
    {b c b' c' : State} {x y : Bound.Block} {ss ts : List Source}, body.spanless = body'.spanless →
    (∀ n ∈ body.outer known, names n) → Knows b known → Twin names β γ b c →
    (bindScoped kind body).run b = .ok ((x, ss), b') →
    (bindScoped kind body').run c = .ok ((y, ts), c') →
    BlockTwin names β γ b x y ss ts b' c' ∧ ScopeTwin β γ (x.scope.getD 0) (y.scope.getD 0)
  | .mk stmts tail span, .mk stmts' tail' span', known, b, c, b', c', x, y, ss, ts, hs, hn, hk, h, hb,
      hc => by
    simp only [Block.spanless, Block.mk.injEq] at hs
    rw [Block.outer, List.forall_mem_append] at hn
    obtain ⟨xs, x₃, b₂, b₃, hb₂, hb₃, rfl, rfl⟩ := bindScoped_run hb
    obtain ⟨ys, y₃, c₂, c₃, hc₂, hc₃, rfl, rfl⟩ := bindScoped_run hc
    have hopen := h.opened' kind none none span span'
    have hstmts := bindStmts_twin stmts stmts' hs.1 hn.1 (knows_opened hk kind none span)
      (List.cons_ne_nil _ _) hopen hb₂ hc₂
    have htail := bindOption_twin tail tail' hs.2.1 hn.2 hstmts.knows
      (hstmts.frames_ne (List.cons_ne_nil _ _)) hstmts.twin hb₃ hc₃
    have hblock : BlockMoved names β γ (b.opened kind none span) ⟨some b.scopes.size, xs, x₃⟩
        ⟨some c.scopes.size, ys, y₃⟩ ss ts b₃ c₃ :=
      ⟨hstmts.trans (htail.moved nofun), htail.typed.mono hstmts.grows, htail.sources⟩
    exact ⟨hblock.scoped, h.scope_next⟩
termination_by structural part => part

/-- The contents of a block are bound to the same. -/
theorem bindBlock_twin (scope scope' : Option ScopeId) : ∀ (body body' : Block)
    {known : List String} {b c b' c' : State} {x y : Bound.Block} {ss ts : List Source},
    body.spanless = body'.spanless → (∀ n ∈ body.outer known, names n) → Knows b known →
    b.frames ≠ [] → Twin names β γ b c → (bindBlock scope body).run b = .ok ((x, ss), b') →
    (bindBlock scope' body').run c = .ok ((y, ts), c') → BlockMoved names β γ b x y ss ts b' c'
  | .mk stmts tail _, .mk stmts' tail' _, known, b, c, b', c', x, y, ss, ts, hs, hn, hk, hf, h, hb,
      hc => by
    simp only [Block.spanless, Block.mk.injEq] at hs
    rw [Block.outer, List.forall_mem_append] at hn
    obtain ⟨xs, x₃, b₂, hb₂, hb₃, rfl⟩ := bindBlock_run hb
    obtain ⟨ys, y₃, c₂, hc₂, hc₃, rfl⟩ := bindBlock_run hc
    have hstmts := bindStmts_twin stmts stmts' hs.1 hn.1 hk hf h hb₂ hc₂
    have htail := bindOption_twin tail tail' hs.2.1 hn.2 hstmts.knows (hstmts.frames_ne hf)
      hstmts.twin hb₃ hc₃
    exact ⟨hstmts.trans (htail.moved nofun), htail.typed.mono hstmts.grows, htail.sources⟩
termination_by structural part => part

/-- Statements are bound to the same. -/
theorem bindStmts_twin : ∀ (stmts stmts' : List Stmt) {known : List String} {b c b' c' : State}
    {xs ys : List Bound.Stmt}, stmtsSpanless stmts = stmtsSpanless stmts' →
    (∀ n ∈ stmtsOuter known stmts, names n) → Knows b known → b.frames ≠ [] →
    Twin names β γ b c → (bindStmts stmts).run b = .ok (xs, b') →
    (bindStmts stmts').run c = .ok (ys, c') → Moved names β γ b (knownAfter known stmts) b' c'
  | [], [], known, b, c, b', c', xs, ys, _, _, hk, _, h, hb, hc => by
    rw [bindStmts, run_pure_eq_ok] at hb hc
    cases hb
    cases hc
    exact ⟨h, .rfl, rfl, Nat.le_refl _, hk⟩
  | s :: stmts, s' :: stmts', known, b, c, b', c', xs, ys, hs, hn, hk, hf, h, hb, hc => by
    rw [stmtsSpanless, stmtsSpanless, List.cons.injEq] at hs
    rw [stmtsOuter, List.forall_mem_append] at hn
    obtain ⟨x₁, xs', b₁, hb₁, hb₂, rfl⟩ := bindStmts_cons_run hb
    obtain ⟨y₁, ys', c₁, hc₁, hc₂, rfl⟩ := bindStmts_cons_run hc
    have hone := bindStmt_twin s s' hs.1 hn.1 hk hf h hb₁ hc₁
    exact hone.trans (bindStmts_twin stmts stmts' hs.2 hn.2 hone.knows (hone.frames_ne hf) hone.twin
      hb₂ hc₂)
  | [], _ :: _, _, _, _, _, _, _, _, hs, _, _, _, _, _, _
  | _ :: _, [], _, _, _, _, _, _, _, hs, _, _, _, _, _, _ => by simp [stmtsSpanless] at hs
termination_by structural part => part

/-- A statement is bound to the same. -/
theorem bindStmt_twin : ∀ (s s' : Stmt) {known : List String} {b c b' c' : State}
    {x y : Bound.Stmt}, s.spanless = s'.spanless → (∀ n ∈ s.outer known, names n) →
    Knows b known → b.frames ≠ [] → Twin names β γ b c → (bindStmt s).run b = .ok (x, b') →
    (bindStmt s').run c = .ok (y, c') → Moved names β γ b (s.declares ++ known) b' c'
  | .bind isMut name stated value span, s', known, b, c, b', c', x, y, hs, hn, hk, hf, h, hb, hc => by
    cases s' with
    | bind isMut' name' stated' value' span' =>
      simp only [Stmt.spanless, Stmt.bind.injEq] at hs
      obtain ⟨rfl, hname, hstated, hvalue, -⟩ := hs
      obtain ⟨x₁, ss₁, ty, b₁, hb₁, hb₂, rfl, rfl⟩ := bindStmt_bind_run hb
      obtain ⟨y₁, ts₁, ty', c₁, hc₁, hc₂, rfl, rfl⟩ := bindStmt_bind_run hc
      have hv := bindExpr_twin value value' hvalue hn hk hf h hb₁ hc₁
      rw [← hv.twin.generics] at hc₂
      obtain ⟨rfl, -⟩ := bindingTy_twin hv.twin hstated hv.typed hb₂ hc₂
      have htext : name.spanless.text = name'.spanless.text := by rw [hname]
      change name.text = name'.text at htext
      rw [← htext]
      have hdeclared := hv.twin.moved_declared (hv.frames_ne hf) (hv.knows hk) name.text ty isMut
        false span span'
      -- The two new variables stand for each other, and what the values come from is stored in
      -- both.
      exact (hv.moved hk).trans { hdeclared with
        twin := hdeclared.twin.stored_into hv.twin.var_next hv.sources
        knows := hdeclared.knows }
    | _ => simp [Stmt.spanless] at hs
  | .assign target value span, s', known, b, c, b', c', x, y, hs, hn, hk, hf, h, hb, hc => by
    cases s' with
    | assign target' value' span' =>
      simp only [Stmt.spanless, Stmt.assign.injEq] at hs
      obtain ⟨htarget, hvalue, -⟩ := hs
      rw [Stmt.outer, List.forall_mem_append] at hn
      obtain ⟨x₁, ss₁, b₁, hb₁, hb⟩ := bindStmt_assign_run hb
      obtain ⟨y₁, ts₁, c₁, hc₁, hc⟩ := bindStmt_assign_run hc
      have hv := bindExpr_twin value value' hvalue hn.2 hk hf h hb₁ hc₁
      have htext : target.spanless.text = target'.spanless.text := by rw [htarget]
      change target.text = target'.text at htext
      exact (hv.moved hk).trans (assign_twin htext (hv.knows hk) hv.twin hv.sources hb hc)
    | _ => simp [Stmt.spanless] at hs
  | .expr value _, s', known, b, c, b', c', x, y, hs, hn, hk, hf, h, hb, hc => by
    cases s' with
    | expr value' _ =>
      simp only [Stmt.spanless, Stmt.expr.injEq] at hs
      obtain ⟨x₁, ss₁, hb₁, rfl⟩ := bindStmt_expr_run hb
      obtain ⟨y₁, ts₁, hc₁, rfl⟩ := bindStmt_expr_run hc
      exact (bindExpr_twin value value' hs.1 hn hk hf h hb₁ hc₁).moved hk
    | _ => simp [Stmt.spanless] at hs
  | .ret none _, s', known, b, c, b', c', x, y, hs, hn, hk, hf, h, hb, hc => by
    cases s' with
    | ret value' _ =>
      cases value' with
      | none =>
        rw [bindStmt, run_pure_eq_ok] at hb hc
        cases hb
        cases hc
        exact ⟨h, .rfl, rfl, Nat.le_refl _, hk⟩
      | some _ => simp [Stmt.spanless, optionSpanless] at hs
    | _ => simp [Stmt.spanless] at hs
  | .ret (some value) _, s', known, b, c, b', c', x, y, hs, hn, hk, hf, h, hb, hc => by
    cases s' with
    | ret value' _ =>
      cases value' with
      | none => simp [Stmt.spanless, optionSpanless] at hs
      | some value' =>
        simp only [Stmt.spanless, optionSpanless, Stmt.ret.injEq, Option.some.injEq] at hs
        obtain ⟨x₁, ss₁, b₁, hb₁, rfl, rfl⟩ := bindStmt_ret_run hb
        obtain ⟨y₁, ts₁, c₁, hc₁, rfl, rfl⟩ := bindStmt_ret_run hc
        have hv := bindExpr_twin value value' hs.1 hn hk hf h hb₁ hc₁
        exact (hv.drained (x := .escape ss₁) (y := .escape ts₁) hv.sources).moved hk
    | _ => simp [Stmt.spanless] at hs
termination_by structural part => part

end

end ClosureEnv.Binding
