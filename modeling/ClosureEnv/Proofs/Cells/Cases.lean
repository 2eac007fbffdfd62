import ClosureEnv.Proofs.Cells.Blocks

/-!
# Expressions and statements in cells, case by case

For each form of an expression and of a statement: if its parts are evaluated alike directly and
beside lasting environments, then so is the whole. Calls are taken to agree.
-/

namespace ClosureEnv.Run.Cells

open Lowered (Scheme)
open ClosureEnv.Bound (after after_bind after_of_declared exprsBinds exprsScoped exprsTested
  optionBinds optionScoped optionTested stmtsBinds stmtsScoped stmtsTested)

-- the equations of these functions are made here once, not by each of the cases that use them
attribute [local simp] Direct.Context.expr Direct.Context.option Direct.Context.exprs
  Direct.Context.block Direct.Context.stmt Direct.Context.stmts Lasting.Context.expr
  Lasting.Context.option Lasting.Context.exprs Lasting.Context.block Lasting.Context.stmt
  Lasting.Context.stmts Bound.Expr.binds Bound.optionBinds Bound.exprsBinds Bound.Block.binds
  Bound.Stmt.binds Bound.stmtsBinds Bound.Expr.tested Bound.optionTested Bound.exprsTested
  Bound.Block.tested Bound.Stmt.tested Bound.stmtsTested

/-- How a call ends: the frame of the caller is as it was. -/
structure Called (r : Scheme) (X : Twin) (x : Direct.Val) (d : Direct.Store) (y : Lasting.Val)
    (s : Lasting.Store) : Prop where
  /-- All cells without homes that were there are as they were. -/
  leaves : Leaves r (fun _ => False) X.direct.cells.size [] X x d y s
  /-- The same cells are in sight. -/
  direct : d.sight = X.direct.sight
  /-- The same environments are in sight. -/
  lasting : s.sight = X.lasting.sight
  /-- The variables of the frame are the same. -/
  locals : s.locals = X.lasting.locals

/-- Calls of values that are the same end alike. -/
def CallsAgree (r : Scheme) (call : Direct.Val → List Direct.Val → Direct.Eval Direct.Val)
    (call' : Lasting.Val → List Lasting.Val → Lasting.Eval Lasting.Val) : Prop :=
  ∀ X x y xs ys, World r.tree r.plans X → Same r.tree r.plans X.homes x y →
    List.Forall₂ (Same r.tree r.plans X.homes) xs ys →
    Agree (Called r X) (fun _ _ _ _ => False) (call x xs X.direct) (call' y ys X.lasting)

/-- A variable has its slot in the environment of its own scope, if it has one. -/
def Own (r : Scheme) (v : VarId) : Prop :=
  ∀ p x, r.plans.varPlan.find? v = some p → r.tree.vars[v]? = some x → r.plans.From p x.scope

/-- What two evaluations of a tree rely on agrees. -/
structure Alongside (holds : VarId → ClosureId → Prop) (r : Scheme) (c : Direct.Context)
    (c' : Lasting.Context) : Prop where
  /-- The unit is lowered soundly. -/
  sound : r.Sound holds
  /-- No scope that is entered in the test of a loop has lost its environment to another. -/
  tests : ∀ v, r.tree.Tested v → Own r v
  /-- The one is of this tree. -/
  direct : c.tree = r.tree
  /-- The other is of this tree. -/
  lasting : c'.tree = r.tree
  /-- And with these plans. -/
  plans : c'.plans = r.plans
  /-- Loops may take as many turns. -/
  turns : c.turns = c'.turns
  /-- Calls agree. -/
  call : CallsAgree r c.call c'.call

variable (holds : VarId → ClosureId → Prop) (r : Scheme) (c : Direct.Context) (c' : Lasting.Context)

/-- An expression is evaluated alike wherever it stands. -/
def ExprAgrees (e : Bound.Expr) : Prop :=
  ∀ ⦃scope vis base X⦄, r.tree.Reach scope vis → e.Scoped r.tree holds scope vis →
    e.binds.Nodup → (∀ v ∈ e.tested, Own r v) → Point r vis base X →
    Unborn r (Within r scope) X e.binds →
    AgreeAt r scope vis base e.binds X (Same r.tree r.plans) (c.expr e X.direct)
      (c'.expr e X.lasting)

/-- An optional expression is evaluated alike wherever it stands. -/
def OptionAgrees (e : Option Bound.Expr) : Prop :=
  ∀ ⦃scope vis base X⦄, r.tree.Reach scope vis → optionScoped r.tree holds scope vis e →
    (optionBinds e).Nodup → (∀ v ∈ optionTested e, Own r v) → Point r vis base X →
    Unborn r (Within r scope) X (optionBinds e) →
    AgreeAt r scope vis base (optionBinds e) X (Same r.tree r.plans) (c.option e X.direct)
      (c'.option e X.lasting)

/-- Arguments are evaluated alike wherever they stand. -/
def ExprsAgree (es : List Bound.Expr) : Prop :=
  ∀ ⦃scope vis base X⦄, r.tree.Reach scope vis → exprsScoped r.tree holds scope vis es →
    (exprsBinds es).Nodup → (∀ v ∈ exprsTested es, Own r v) → Point r vis base X →
    Unborn r (Within r scope) X (exprsBinds es) →
    AgreeAt r scope vis base (exprsBinds es) X (fun μ => List.Forall₂ (Same r.tree r.plans μ))
      (c.exprs es X.direct) (c'.exprs es X.lasting)

/-- A statement is run alike wherever it stands. -/
def StmtAgrees (x : Bound.Stmt) : Prop :=
  ∀ ⦃scope vis base X⦄, r.tree.Reach scope vis → x.Scoped r.tree holds scope vis →
    x.binds.Nodup → (∀ v ∈ x.tested, Own r v) → Point r vis base X →
    Unborn r (Within r scope) X x.binds →
    AgreeAt r scope (after vis [x]) base x.binds X (fun _ _ _ => True) (c.stmt x X.direct)
      (c'.stmt x X.lasting)

/-- Statements are run alike wherever they stand. -/
def StmtsAgree (ss : List Bound.Stmt) : Prop :=
  ∀ ⦃scope vis base X⦄, r.tree.Reach scope vis → stmtsScoped r.tree holds scope vis ss →
    (stmtsBinds ss).Nodup → (∀ v ∈ stmtsTested ss, Own r v) → Point r vis base X →
    Unborn r (Within r scope) X (stmtsBinds ss) →
    AgreeAt r scope (after vis ss) base (stmtsBinds ss) X (fun _ _ _ => True)
      (c.stmts ss X.direct) (c'.stmts ss X.lasting)

/-- What stands in a block is run alike wherever it stands. -/
def BlockAgrees : Bound.Block → Prop
  | .mk _ ss tail => ∀ ⦃scope vis base X⦄, r.tree.Reach scope vis →
    stmtsScoped r.tree holds scope vis ss → optionScoped r.tree holds scope (after vis ss) tail →
    (stmtsBinds ss ++ optionBinds tail).Nodup →
    (∀ v ∈ stmtsTested ss ++ optionTested tail, Own r v) → Point r vis base X →
    Unborn r (Within r scope) X (stmtsBinds ss ++ optionBinds tail) →
    AgreeAt r scope (after vis ss) base (stmtsBinds ss ++ optionBinds tail) X
      (Same r.tree r.plans) ((do c.stmts ss; c.option tail) X.direct)
      ((do c'.stmts ss; c'.option tail) X.lasting)

variable {holds r c c'} {scope i : ScopeId} {vis : VarId → Prop} {base : Nat} {vs : List VarId}
  {X : Twin}

/-! ## Points -/

/-- A point after a call. -/
theorem Point.of_called (h : Point r vis base X) {x : Direct.Val} {y : Lasting.Val}
    {d : Direct.Store} {s : Lasting.Store} (hc : Called r X x d y s) :
    Gives r scope vis base [] X (Same r.tree r.plans) x d y s := by
  obtain ⟨⟨μ, hworld, hlater, hsame⟩, hdirect, hlasting, hlocals⟩ := hc
  -- The call may write to the cells that are captured, and to those that it made.
  have hkept : Later r (Within r scope) X.direct.cells.size [] X ⟨μ, d, s⟩ :=
    hlater.imp fun _ hv => nomatch hv
  refine ⟨μ, ⟨⟨hworld, fun v p hv hp => ?_, fun v hv hp => ?_, ?_, h.base.trans hlater.cells⟩,
    ⟨hkept.homes, hkept.new, hkept.cells, hkept.heap,
      fun c hc => hkept.kept c (Nat.lt_of_lt_of_le hc h.base)⟩,
    fun v _ => congrArg _ hdirect, hlasting⟩, hsame⟩
  · dsimp only
    rw [hdirect, hlasting]
    exact (h.captured v p hv hp).mono hlater.homes
  · obtain ⟨c, z, u, hc, hbase, hμ, hz, hu, hzu⟩ := h.plain v hv hp
    have hlt : c < X.direct.cells.size := (Array.getElem?_eq_some_iff.mp hz).1
    have hnone := hlater.still_homeless hμ hlt
    refine ⟨c, z, u, ?_, hbase, hnone, (hlater.kept c hlt hnone).trans hz, ?_,
      hzu.mono hlater.homes⟩
    · dsimp only
      rw [hdirect]
      exact hc
    · dsimp only
      rw [hlocals]
      exact hu
  · dsimp only
    rw [hdirect]
    exact h.apart

/-- A closure literal: the closure keeps cells that stand for the slots of all that it needs. -/
theorem Point.agree_close (h : Point r vis base X) (hr : r.Sound holds) {k : ClosureId}
    {l : Closure} (hl : r.tree.closures[k]? = some l) (hneeds : ∀ v, r.tree.Needs k v → vis v) :
    AgreeAt r scope vis base [] X (Same r.tree r.plans) (Direct.close r.tree k X.direct)
      (Lasting.close r.tree r.plans k X.lasting) := by
  -- whatever environment an empty closure is made with, it is a new one
  have hempty : ∃ heap singletons, X.lasting.bindEmpty (r.plans.bindings.find? k) =
      { X.lasting with heap, singletons } ∧ (heap = X.lasting.heap ∨
        ∃ i, heap = X.lasting.heap.push i) := by
    unfold Lasting.Store.bindEmpty
    split
    · split
      · exact ⟨_, _, rfl, .inl rfl⟩
      · exact ⟨_, _, rfl, .inr ⟨_, rfl⟩⟩
    · exact ⟨_, _, rfl, .inr ⟨_, rfl⟩⟩
    · exact ⟨_, _, rfl, .inl rfl⟩
    · exact ⟨_, _, rfl, .inl rfl⟩
  obtain ⟨heap, singletons, heq, hheap⟩ := hempty
  have hworld : World r.tree r.plans
      ⟨X.homes, X.direct, { X.lasting with heap, singletons }⟩ := by
    rcases hheap with rfl | ⟨i, rfl⟩
    · exact h.world.congr rfl rfl rfl rfl h.world.depth
    · exact (h.world.push i).congr rfl rfl rfl rfl h.world.depth
  have hle : X.lasting.heap.size ≤ heap.size := by
    rcases hheap with rfl | ⟨i, rfl⟩
    · exact Nat.le_refl _
    · simp
  have hreached : Reached r scope vis base [] X
      ⟨X.homes, X.direct, { X.lasting with heap, singletons }⟩ :=
    ⟨⟨hworld, h.captured, h.plain, h.apart, h.base⟩,
      ⟨fun _ _ hc => hc, fun _ _ _ hc => .inl hc, Nat.le_refl _, hle, fun _ _ _ => rfl⟩,
      fun _ _ => rfl, rfl⟩
  have hclose : Lasting.close r.tree r.plans k X.lasting =
      (.ok (.closure (Direct.lambdaName r.tree (r.tree.closures[k]?.getD default))
        ⟨k, X.lasting.sight⟩), { X.lasting with heap, singletons }) := by
    unfold Lasting.close
    rw [Exec.bind_of_ok (modify_run _ _), heq]
    rfl
  rw [hclose]
  -- Whatever the closure needs is visible here, so its environments are in sight and hold the
  -- cells.
  refine .ok ⟨X.homes, hreached, .closure ⟨rfl, ⟨l, hl⟩, fun v hv => ?_⟩, fun _ hy => nomatch hy⟩
  obtain ⟨p, hp⟩ := hr.plans.linking.placed.covered v ⟨k, hv⟩
  exact h.captured v p (hneeds v hv) hp

/-! ## Scopes that open -/

/-- Whatever is unborn in a scope is unborn before the entry of one right below. -/
theorem Unborn.opened (h : Unborn r (Within r scope) X vs) (hr : r.Sound holds) {kind : ScopeKind}
    (hopens : Bound.Opens r.tree scope i kind) : Unborn r (Around r.tree.scopes · i) X vs :=
  h.imp (List.Subset.refl _) fun _ => aroundEq_parent hr.bound.preorder hopens.parent

/-- What the test of a loop declares is always unborn where the loop stands: it has its slots in
environments of scopes below. -/
theorem unborn_test (hr : r.Sound holds) (hown : ∀ v ∈ vs, Own r v)
    (hbelow : ∀ v ∈ vs, r.tree.Below scope v) (X : Twin) : Unborn r (Within r scope) X vs := by
  intro v hv p o hp ho hos
  obtain ⟨x, hx, hsx⟩ := hbelow v hv
  cases ho.unique (hown v hv p x hp hx)
  exact absurd (hsx.trans_eq hr.bound.preorder hos) (Around.irrefl hr.bound.preorder)

/-- What stands in a block, as a block that opens a scope. -/
theorem block_opens (h : Alongside holds r c c') {b : Bound.Block} (hb : BlockAgrees holds r c c' b)
    {kind : ScopeKind} (hreach : r.tree.Reach scope vis) (hscoped : b.Scoped r.tree holds scope vis)
    (hi : b.scope = some i) (hopens : Bound.Opens r.tree scope i kind) (hkind : kind ≠ .closure)
    (hn : b.binds.Nodup) (htests : ∀ v ∈ b.tested, Own r v) (hpoint : Point r vis base X)
    (hunborn : Unborn r (Around r.tree.scopes · i) X b.binds) :
    AgreeAt r scope vis base b.binds X (Same r.tree r.plans) (c.block b X.direct)
      (c'.block b X.lasting) := by
  have hbelow := Bound.Block.Scoped.belowEq h.sound.bound.preorder b hscoped
  obtain ⟨o, ss, tail⟩ := b
  obtain rfl : o = some i := hi
  obtain ⟨x, hx, rfl, hpar⟩ := hopens
  rw [Bound.Block.binds] at hn hunborn ⊢
  rw [Bound.Block.tested] at htests
  rw [Direct.Context.block, Lasting.Context.block, h.plans]
  exact agree_block h.sound hreach ((parentIn?_of_scope hx).trans hpar) hbelow
    (fun v => .inl) hpoint hunborn fun Y hY hborn =>
      hb (hreach.block h.sound.bound hx hpar hkind) hscoped.1 hscoped.2 hn htests hY hborn

/-! ## Expressions -/

/-- A literal. -/
theorem expr_lit (l : Syntax.Literal) : ExprAgrees holds r c c' (.lit l) := by
  intro scope vis base X hreach hscoped hn htests hpoint hunborn
  rw [Direct.Context.expr, Lasting.Context.expr]
  exact .ok ((hpoint.reached scope).gives_data (.ofLiteral l))

/-- A global. -/
theorem expr_global (name : String) : ExprAgrees holds r c c' (.global name) := by
  intro scope vis base X hreach hscoped hn htests hpoint hunborn
  rw [Direct.Context.expr, Lasting.Context.expr]
  unfold Direct.readGlobal Lasting.readGlobal
  rw [Exec.get_bind, Exec.get_bind]
  have hglobal := hpoint.world.globals name
  generalize X.direct.globals.find? name = a at hglobal
  generalize X.lasting.globals.find? name = b at hglobal
  cases hglobal with
  | none => exact .failed _ _ _ rfl
  | some hxy => exact .ok ⟨X.homes, hpoint.reached scope, hxy⟩

/-- A function. -/
theorem expr_fn (name : String) : ExprAgrees holds r c c' (.fn name) := by
  intro scope vis base X hreach hscoped hn htests hpoint hunborn
  rw [Direct.Context.expr, Lasting.Context.expr]
  refine .ok ⟨X.homes, hpoint.reached scope, .fn name, fun n hy => ?_⟩
  cases hy
  exact hscoped

/-- An operator of one operand. -/
theorem expr_unary {op : Syntax.UnaryOp} {e : Bound.Expr} (he : ExprAgrees holds r c c' e) :
    ExprAgrees holds r c c' (.unary op e) := by
  intro scope vis base X hreach hscoped hn htests hpoint hunborn
  rw [Bound.Expr.binds] at hn hunborn ⊢
  rw [Bound.Expr.tested] at htests
  rw [Direct.Context.expr, Lasting.Context.expr]
  refine Agree.bind (he hreach hscoped hn htests hpoint hunborn) fun x d y s hgives => ?_
  obtain ⟨μ, hreached, hxy⟩ := hgives
  exact Agree.ofExcept (hxy.alike.unary op) fun _ _ hdata => hreached.gives_data hdata

/-- An operator of two operands. -/
theorem expr_binary {op : Syntax.BinaryOp} {e f : Bound.Expr} (he : ExprAgrees holds r c c' e)
    (hf : ExprAgrees holds r c c' f) : ExprAgrees holds r c c' (.binary op e f) := by
  intro scope vis base X hreach hscoped hn htests hpoint hunborn
  rw [Bound.Expr.binds] at hn hunborn ⊢
  rw [List.nodup_append] at hn
  rw [Bound.Expr.tested, List.forall_mem_append] at htests
  rw [Direct.Context.expr, Lasting.Context.expr]
  refine AgreeAt.bind (he hreach hscoped.1 hn.1 htests.1 hpoint hunborn.left)
    fun Y x y hY hxy => ?_
  have hborn := hunborn.right.reached hY hn.2.2
  have hright := (hf hreach hscoped.2 hn.2.1 htests.2 hY.point hborn).imp
    (fun _ _ _ _ => Gives.loose) fun _ _ _ _ => id
  have hstart : Arrives r scope vis base f.binds Y Y.direct Y.lasting :=
    ⟨Y.homes, (hY.point.reached scope).mono (List.nil_subset _)⟩
  refine (Agree.binary op hxy.loose hstart hright).imp (fun _ _ _ _ harrives => ?_)
    fun _ _ _ _ => id
  obtain ⟨hdata, μ, hZ⟩ := harrives
  exact hZ.gives_data hdata

section

variable (h : Alongside holds r c c')

include h

/-- A variable. -/
theorem expr_var (v : VarId) : ExprAgrees holds r c c' (.var v) := by
  intro scope vis base X hreach hscoped hn htests hpoint hunborn
  rw [Direct.Context.expr, Lasting.Context.expr, h.direct, h.lasting, h.plans]
  exact hpoint.agree_read hscoped

/-- A call. -/
theorem expr_call {f : Bound.Expr} {es : List Bound.Expr} (hf : ExprAgrees holds r c c' f)
    (hes : ExprsAgree holds r c c' es) : ExprAgrees holds r c c' (.call f es) := by
  intro scope vis base X hreach hscoped hn htests hpoint hunborn
  rw [Bound.Expr.binds] at hn hunborn ⊢
  rw [List.nodup_append] at hn
  rw [Bound.Expr.tested, List.forall_mem_append] at htests
  rw [Direct.Context.expr, Lasting.Context.expr, ← List.append_nil (exprsBinds es)]
  refine AgreeAt.bind (hf hreach hscoped.1 hn.1 htests.1 hpoint hunborn.left)
    fun Y x y hY hxy => ?_
  refine AgreeAt.bind (hes hreach hscoped.2.1 hn.2.1 htests.2 hY.point
    (hunborn.right.reached hY hn.2.2)) fun Z xs ys hZ hargs => ?_
  exact (h.call Z x y xs ys hZ.point.world (hxy.mono hZ.later.homes) hargs).imp
    (fun _ _ _ _ => hZ.point.of_called) fun _ _ _ _ => False.elim

/-- A block. -/
theorem expr_block {b : Bound.Block} (hb : BlockAgrees holds r c c' b) :
    ExprAgrees holds r c c' (.block b) := by
  intro scope vis base X hreach hscoped hn htests hpoint hunborn
  obtain ⟨hscoped, i, hi, hopens, -⟩ := hscoped
  rw [Bound.Expr.binds] at hn hunborn ⊢
  rw [Bound.Expr.tested] at htests
  rw [Direct.Context.expr, Lasting.Context.expr]
  exact block_opens h hb hreach hscoped hi hopens (fun h => nomatch h) hn htests hpoint
    (hunborn.opened h.sound hopens)

/-- A branch. -/
theorem expr_cond {e : Bound.Expr} {b : Bound.Block} {n : Option Bound.Expr}
    (he : ExprAgrees holds r c c' e) (hb : BlockAgrees holds r c c' b)
    (hno : OptionAgrees holds r c c' n) : ExprAgrees holds r c c' (.cond e b n) := by
  intro scope vis base X hreach hscoped hn htests hpoint hunborn
  obtain ⟨hse, hsb, ⟨i, hi, hopens, -⟩, hsn⟩ := hscoped
  rw [Bound.Expr.binds] at hn hunborn ⊢
  rw [List.nodup_append, List.nodup_append] at hn
  obtain ⟨hne, ⟨hnb, hnn, -⟩, hapart⟩ := hn
  rw [Bound.Expr.tested, List.forall_mem_append, List.forall_mem_append] at htests
  rw [Direct.Context.expr, Lasting.Context.expr]
  refine Agree.branch (M := Arrives r scope vis base e.binds X)
    ((he hreach hse hne htests.1 hpoint hunborn.left).imp (fun _ _ _ _ => Gives.loose)
      fun _ _ _ _ hret => hret.mono (List.subset_append_left _ _)) ?_ ?_
  · rintro d s ⟨μ, hY⟩
    have hborn := hunborn.right.reached hY hapart
    exact ((block_opens h hb hreach hsb hi hopens (fun h => nomatch h) hnb htests.2.1 hY.point
      (hborn.left.opened h.sound hopens)).trans hY).mono
        (List.append_subset.mpr ⟨List.subset_append_left _ _,
          List.subset_append_of_subset_right _ (List.subset_append_left _ _)⟩)
  · rintro d s ⟨μ, hY⟩
    have hborn := hunborn.right.reached hY hapart
    exact ((hno hreach hsn hnn htests.2.2 hY.point hborn.right).trans hY).mono
      (List.append_subset.mpr ⟨List.subset_append_left _ _,
        List.subset_append_of_subset_right _ (List.subset_append_right _ _)⟩)

/-- A loop. -/
theorem expr_loop {e : Bound.Expr} {b : Bound.Block} (he : ExprAgrees holds r c c' e)
    (hb : BlockAgrees holds r c c' b) : ExprAgrees holds r c c' (.loop e b) := by
  intro scope vis base X hreach hscoped hn htests hpoint hunborn
  obtain ⟨hse, hsb, i, hi, hopens⟩ := hscoped
  have hpre := h.sound.bound.preorder
  rw [Bound.Expr.binds, List.nodup_append] at hn
  rw [Bound.Expr.tested, List.forall_mem_append, List.forall_mem_append] at htests
  rw [Direct.Context.expr, Lasting.Context.expr, h.turns, Bound.Expr.binds]
  -- a turn ends where the next one can begin: what it declares is unborn at any time
  refine Agree.bind (Agree.iterate (R := fun _ _ _ => True)
    (M := Arrives r scope vis base (e.binds ++ b.binds) X) ?_ ?_ _ X.direct X.lasting
    ⟨X.homes, (hpoint.reached scope).mono (List.nil_subset _)⟩)
    fun _ d _ s harrives => ?_
  · rintro d s ⟨μ, hY⟩
    have htest := he hreach hse hn.1 htests.2.1 hY.point
      (unborn_test h.sound htests.1 (Bound.Expr.Scoped.below hpre e hse) _)
    exact ((htest.trans hY).mono (List.append_subset.mpr ⟨List.Subset.refl _,
      List.subset_append_left _ _⟩)).imp (fun _ _ _ _ => Gives.loose) fun _ _ _ _ => id
  · rintro d s ⟨μ, hY⟩
    obtain ⟨x, hx, hkind, -⟩ := id hopens
    have hbelow := Bound.Block.Scoped.belowEq hpre b hsb
    rw [hi] at hbelow
    have hbody := block_opens h hb hreach hsb hi hopens (fun h => nomatch h) hn.2.1 htests.2.2
      hY.point (unborn_around h.sound hx (fun h => nomatch hkind.symm.trans h) hbelow)
    exact ((hbody.trans hY).mono (List.append_subset.mpr ⟨List.Subset.refl _,
      List.subset_append_right _ _⟩)).imp (fun _ _ _ _ hgives => hgives.loose.2) fun _ _ _ _ => id
  · obtain ⟨μ, hY⟩ := harrives
    exact .ok (hY.gives_data .unit)

/-- A closure literal. -/
theorem expr_closure (k : ClosureId) : ExprAgrees holds r c c' (.closure k) := by
  intro scope vis base X hreach hscoped hn htests hpoint hunborn
  obtain ⟨l, hl, -, hneeds⟩ := hscoped
  rw [Direct.Context.expr, Lasting.Context.expr, h.direct, h.lasting, h.plans]
  exact hpoint.agree_close h.sound hl hneeds

end

/-- No expression. -/
theorem option_none : OptionAgrees holds r c c' none := by
  intro scope vis base X hreach hscoped hn htests hpoint hunborn
  rw [Direct.Context.option, Lasting.Context.option]
  exact .ok ((hpoint.reached scope).gives_data .unit)

/-- An expression that may be missing. -/
theorem option_some {e : Bound.Expr} (he : ExprAgrees holds r c c' e) :
    OptionAgrees holds r c c' (some e) := by
  intro scope vis base X hreach hscoped hn htests hpoint hunborn
  rw [optionBinds] at hn hunborn ⊢
  rw [optionTested] at htests
  rw [Direct.Context.option, Lasting.Context.option]
  exact he hreach hscoped hn htests hpoint hunborn

/-- No arguments. -/
theorem exprs_nil : ExprsAgree holds r c c' [] := by
  intro scope vis base X hreach hscoped hn htests hpoint hunborn
  rw [Direct.Context.exprs, Lasting.Context.exprs]
  exact .ok ⟨X.homes, hpoint.reached scope, .nil⟩

/-- An argument and more. -/
theorem exprs_cons {e : Bound.Expr} {es : List Bound.Expr} (he : ExprAgrees holds r c c' e)
    (hes : ExprsAgree holds r c c' es) : ExprsAgree holds r c c' (e :: es) := by
  intro scope vis base X hreach hscoped hn htests hpoint hunborn
  rw [exprsBinds] at hn hunborn ⊢
  rw [List.nodup_append] at hn
  rw [exprsTested, List.forall_mem_append] at htests
  rw [Direct.Context.exprs, Lasting.Context.exprs]
  refine AgreeAt.bind (he hreach hscoped.1 hn.1 htests.1 hpoint hunborn.left)
    fun Y x y hY hxy => ?_
  refine Agree.bind (hes hreach hscoped.2 hn.2.1 htests.2 hY.point
    (hunborn.right.reached hY hn.2.2)) fun xs d ys s hgives => ?_
  obtain ⟨μ, hZ, hargs⟩ := hgives
  exact .ok ⟨μ, hZ, .cons (hxy.mono hZ.later.homes) hargs⟩

/-! ## Statements -/

section

variable (h : Alongside holds r c c')

include h

/-- A declaration. -/
theorem stmt_bind {v : VarId} {e : Bound.Expr} (he : ExprAgrees holds r c c' e) :
    StmtAgrees holds r c c' (.bind v e) := by
  intro scope vis base X hreach hscoped hn htests hpoint hunborn
  obtain ⟨hscoped, ⟨u, hu, hus⟩, -⟩ := hscoped
  rw [Bound.Stmt.binds] at hn hunborn ⊢
  rw [List.nodup_append] at hn
  rw [Bound.Stmt.tested] at htests
  rw [Direct.Context.stmt, Lasting.Context.stmt, h.lasting, h.plans, after_bind]
  refine AgreeAt.bind (he hreach hscoped hn.1 htests hpoint hunborn.left) fun Y x y hY hxy => ?_
  exact hY.point.agree_declare h.sound (hunborn.right.reached hY hn.2.2) hu hus hxy

/-- A write to a variable that has been declared. -/
theorem stmt_assign_var {v : VarId} {e : Bound.Expr} (he : ExprAgrees holds r c c' e) :
    StmtAgrees holds r c c' (.assign (.var v) e) := by
  intro scope vis base X hreach hscoped hn htests hpoint hunborn
  rw [Bound.Stmt.binds] at hn hunborn ⊢
  rw [Bound.Stmt.tested] at htests
  rw [Direct.Context.stmt, Lasting.Context.stmt, h.direct, h.lasting, h.plans,
    after_of_declared rfl, ← List.append_nil e.binds]
  refine AgreeAt.bind (he hreach hscoped.1 hn htests hpoint hunborn) fun Y x y hY hxy => ?_
  exact hY.point.agree_assign hscoped.2.1 hxy

end

/-- A write to a global. -/
theorem stmt_assign_global {name : String} {e : Bound.Expr} (he : ExprAgrees holds r c c' e) :
    StmtAgrees holds r c c' (.assign (.global name) e) := by
  intro scope vis base X hreach hscoped hn htests hpoint hunborn
  rw [Bound.Stmt.binds] at hn hunborn ⊢
  rw [Bound.Stmt.tested] at htests
  rw [Direct.Context.stmt, Lasting.Context.stmt, after_of_declared rfl, ← List.append_nil e.binds]
  refine AgreeAt.bind (he hreach hscoped.1 hn htests hpoint hunborn) fun Y x y hY hxy => ?_
  show Agree _ _
    ((if Y.direct.globals.contains name then Direct.writeGlobal name x
      else Exec.fail (.uninitializedGlobal name) : Direct.Eval Unit) Y.direct)
    ((if Y.lasting.globals.contains name then Lasting.writeGlobal name y
      else Exec.fail (.uninitializedGlobal name) : Lasting.Eval Unit) Y.lasting)
  rw [SortedMap.contains_eq_of_rel (hY.point.world.globals name)]
  split
  · have hp := hY.point
    exact .ok ⟨Y.homes, ⟨⟨hp.world.writeGlobal name hxy, hp.captured, hp.plain, hp.apart, hp.base⟩,
      ⟨fun _ _ hc => hc, fun _ _ _ hc => .inl hc, Nat.le_refl _, Nat.le_refl _, fun _ _ _ => rfl⟩,
      fun _ _ => rfl, rfl⟩, trivial⟩
  · exact .failed _ _ _ rfl

/-- An expression as a statement. -/
theorem stmt_expr {e : Bound.Expr} (he : ExprAgrees holds r c c' e) :
    StmtAgrees holds r c c' (.expr e) := by
  intro scope vis base X hreach hscoped hn htests hpoint hunborn
  rw [Bound.Stmt.binds] at hn hunborn ⊢
  rw [Bound.Stmt.tested] at htests
  rw [Direct.Context.stmt, Lasting.Context.stmt, after_of_declared rfl]
  refine Agree.bind (he hreach hscoped hn htests hpoint hunborn) fun x d y s hgives => ?_
  obtain ⟨μ, hY, -⟩ := hgives
  exact .ok ⟨μ, hY, trivial⟩

/-- A return. -/
theorem stmt_ret {e : Option Bound.Expr} (he : OptionAgrees holds r c c' e) :
    StmtAgrees holds r c c' (.ret e) := by
  intro scope vis base X hreach hscoped hn htests hpoint hunborn
  rw [Bound.Stmt.binds] at hn hunborn ⊢
  rw [Bound.Stmt.tested] at htests
  rw [Direct.Context.stmt, Lasting.Context.stmt]
  exact Agree.bind (he hreach hscoped.1 hn htests hpoint hunborn) fun x d y s hgives =>
    .returned hgives.leaves

/-- No statements. -/
theorem stmts_nil : StmtsAgree holds r c c' [] := by
  intro scope vis base X hreach hscoped hn htests hpoint hunborn
  rw [Direct.Context.stmts, Lasting.Context.stmts, Bound.after_nil]
  exact .ok ⟨X.homes, hpoint.reached scope, trivial⟩

/-- A statement and more. -/
theorem stmts_cons (h : Alongside holds r c c') {x : Bound.Stmt} {xs : List Bound.Stmt}
    (hx : StmtAgrees holds r c c' x) (hxs : StmtsAgree holds r c c' xs) :
    StmtsAgree holds r c c' (x :: xs) := by
  intro scope vis base X hreach hscoped hn htests hpoint hunborn
  rw [stmtsBinds] at hn hunborn ⊢
  rw [List.nodup_append] at hn
  rw [stmtsTested, List.forall_mem_append] at htests
  rw [Direct.Context.stmts, Lasting.Context.stmts, Bound.after_cons]
  -- nothing is declared twice, so that what comes later is unborn still
  exact AgreeAt.bind (hx hreach hscoped.1 hn.1 htests.1 hpoint hunborn.left) fun Y _ _ hY _ =>
    hxs (hreach.declare h.sound.bound hscoped.1) hscoped.2 hn.2.1 htests.2 hY.point
      (hunborn.right.reached hY hn.2.2)

/-- What stands in a block. -/
theorem block_mk (h : Alongside holds r c c') {o : Option ScopeId} {ss : List Bound.Stmt}
    {tail : Option Bound.Expr} (hss : StmtsAgree holds r c c' ss)
    (htail : OptionAgrees holds r c c' tail) : BlockAgrees holds r c c' (.mk o ss tail) := by
  intro scope vis base X hreach hsss hst hn htests hpoint hunborn
  rw [List.nodup_append] at hn
  rw [List.forall_mem_append] at htests
  exact AgreeAt.bind (hss hreach hsss hn.1 htests.1 hpoint hunborn.left) fun Y _ _ hY _ =>
    htail (hreach.after h.sound.bound hsss) hst hn.2.1 htests.2 hY.point
      (hunborn.right.reached hY hn.2.2)

end ClosureEnv.Run.Cells
