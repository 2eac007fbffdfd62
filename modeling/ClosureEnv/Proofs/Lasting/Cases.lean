import ClosureEnv.Proofs.Lasting.Blocks
import ClosureEnv.Proofs.Lasting.Literals

/-!
# Expressions and statements, case by case

For each form of an expression and of a statement: if its parts are evaluated alike by a machine and
beside lasting environments, then so is the whole. Calls are taken to agree; how they come to do so
is shown from these cases.
-/

namespace ClosureEnv.Run.Lasting

open Lowered (Scheme Inside)
open ClosureEnv.Bound (after after_bind after_of_declared optionSources)

-- the equations of the three functions are made here once, not by each of the cases that use them
attribute [local simp] Scheme.expr Scheme.option Scheme.exprs Scheme.block Scheme.stmt
  Scheme.stmtList Run.Context.expr Run.Context.option Run.Context.exprs Run.Context.block
  Run.Context.stmt Run.Context.stmts Context.expr Context.option Context.exprs Context.block
  Context.stmt Context.stmts

/-- How a call ends: the frame of the caller is as it was. -/
structure Called (holds : VarId → ClosureId → Prop) (r : Scheme) (m₀ : Machine) (s₀ : Store)
    (x : Run.Val) (m : Machine) (y : Val) (s : Store) : Prop
    extends Returns holds r s₀ x m y s where
  /-- The frame that runs is the same. -/
  frame : m.frame = m₀.frame
  /-- The frames that wait are the same. -/
  callers : m.callers = m₀.callers
  /-- The same is in sight. -/
  sight : s.sight = s₀.sight
  /-- The variables of the frame are the same. -/
  locals : s.locals = s₀.locals

/-- What a closure borrows is in a frame, so that it may be called. -/
def Callable (r : Scheme) (m : Machine) (held : Held) : Prop :=
  ∀ k, r.tree.closures[held.closure]? = some k → Alive r m.frames k.scope held.sight

/-- Arguments that are alike and may go anywhere. -/
def SameArgs (r : Scheme) (s : Store) : List Run.Val → List Val → Prop :=
  List.Forall₂ fun x y => Same r x y ∧ Free r.tree r.plans s.heap y

/-- Calls of values that are alike end alike. -/
def CallsAgree (holds : VarId → ClosureId → Prop) (r : Scheme)
    (call : Run.Val → List Run.Val → Run.Eval Run.Val) (call' : Val → List Val → Eval Val) : Prop :=
  ∀ m s x y xs ys, World holds r m s → Same r x y →
    Good r.tree r.plans s.heap (Callable r m) y → SameArgs r s xs ys →
    Agree (Called holds r m s) (fun _ _ _ _ => False) (call x xs m) (call' y ys s)

/-- What two evaluations of a unit rely on agrees. -/
structure Alongside (holds : VarId → ClosureId → Prop) (r : Scheme) (c : Run.Context)
    (c' : Context) : Prop where
  /-- The unit is lowered soundly. -/
  sound : r.Sound holds
  /-- It is this unit. -/
  unit : Scheme.UnitOf r c.unit
  /-- It is lowered from this tree. -/
  tree : c'.tree = r.tree
  /-- And with these plans. -/
  plans : c'.plans = r.plans
  /-- Loops may take as many turns. -/
  turns : c.turns = c'.turns
  /-- Calls agree. -/
  call : CallsAgree holds r c.call c'.call

variable (holds : VarId → ClosureId → Prop) (r : Scheme) (cx : Inside) (c : Run.Context)
  (c' : Context)

/-- An expression is evaluated alike wherever it stands. -/
def ExprAgrees (e : Bound.Expr) : Prop :=
  ∀ ⦃scope vis x m₀ s₀ m s⦄, Site r cx scope vis → e.Scoped r.tree holds scope vis →
    r.expr cx e = .ok x → Point holds r cx scope vis m₀ s₀ m s →
    Agree (Ends holds r cx scope vis (Reaches holds e.sources) m₀ s₀) (Returns holds r s₀)
      (c.expr x m) (c'.expr e s)

/-- An optional expression is evaluated alike wherever it stands. -/
def OptionAgrees (e : Option Bound.Expr) : Prop :=
  ∀ ⦃scope vis x m₀ s₀ m s⦄, Site r cx scope vis → Bound.optionScoped r.tree holds scope vis e →
    r.option cx e = .ok x → Point holds r cx scope vis m₀ s₀ m s →
    Agree (Ends holds r cx scope vis (Reaches holds (optionSources e)) m₀ s₀) (Returns holds r s₀)
      (c.option x m) (c'.option e s)

/-- Arguments are evaluated alike wherever they stand. -/
def ExprsAgree (es : List Bound.Expr) : Prop :=
  ∀ ⦃scope vis xs m₀ s₀ m s⦄, Site r cx scope vis → Bound.exprsScoped r.tree holds scope vis es →
    (∀ e ∈ es, Bound.AllEscape r.tree holds e.sources) → r.exprs cx es = .ok xs →
    Point holds r cx scope vis m₀ s₀ m s →
    Agree (fun ys m zs s => Point holds r cx scope vis m₀ s₀ m s ∧ SameArgs r s ys zs)
      (Returns holds r s₀) (c.exprs xs m) (c'.exprs es s)

/-- A statement is run alike wherever it stands. -/
def StmtAgrees (e : Bound.Stmt) : Prop :=
  ∀ ⦃scope vis x m₀ s₀ m s⦄, Site r cx scope vis → e.Scoped r.tree holds scope vis →
    r.stmt cx e = .ok x → Point holds r cx scope vis m₀ s₀ m s →
    Agree (fun _ m _ s => Point holds r cx scope (after vis [e]) m₀ s₀ m s) (Returns holds r s₀)
      (c.stmt x m) (c'.stmt e s)

/-- Statements are run alike wherever they stand. -/
def StmtsAgree (ss : List Bound.Stmt) : Prop :=
  ∀ ⦃scope vis xs m₀ s₀ m s⦄, Site r cx scope vis → Bound.stmtsScoped r.tree holds scope vis ss →
    r.stmtList cx ss = .ok xs → Point holds r cx scope vis m₀ s₀ m s →
    Agree (fun _ m _ s => Point holds r cx scope (after vis ss) m₀ s₀ m s) (Returns holds r s₀)
      (c.stmts xs m) (c'.stmts ss s)

/-- What stands in a block is run alike wherever it stands. -/
def BlockAgrees : Bound.Block → Prop
  | .mk _ ss tail => ∀ ⦃scope vis xs x m₀ s₀ m s⦄, Site r cx scope vis →
    Bound.stmtsScoped r.tree holds scope vis ss →
    Bound.optionScoped r.tree holds scope (after vis ss) tail → r.stmtList cx ss = .ok xs →
    r.option cx tail = .ok x → Point holds r cx scope vis m₀ s₀ m s →
    Agree (Ends holds r cx scope vis (Reaches holds (optionSources tail)) m₀ s₀) (Returns holds r s₀)
      ((do c.stmts xs; c.option x) m) ((do c'.stmts ss; c'.option tail) s)

variable {holds r cx c c'}

/-! ## Places and points -/

/-- More is visible after a statement. -/
theorem Site.declare {scope : ScopeId} {vis : VarId → Prop} (hr : r.Sound holds)
    (h : Site r cx scope vis) {x : Bound.Stmt} (hx : x.Scoped r.tree holds scope vis) :
    Site r cx scope (after vis [x]) :=
  ⟨h.inBody, h.reach.declare hr.bound hx⟩

/-- More is visible after statements. -/
theorem Site.after {scope : ScopeId} {vis : VarId → Prop} (hr : r.Sound holds)
    (h : Site r cx scope vis) {ss : List Bound.Stmt}
    (hss : Bound.stmtsScoped r.tree holds scope vis ss) : Site r cx scope (after vis ss) :=
  ⟨h.inBody, h.reach.after hr.bound hss⟩

/-- A point after a call. -/
theorem Point.of_called {scope : ScopeId} {vis : VarId → Prop} {m₀ m m' : Machine} {s₀ s s' : Store}
    (h : Point holds r cx scope vis m₀ s₀ m s) {x : Run.Val} {y : Val}
    (hc : Called holds r m s x m' y s') : Point holds r cx scope vis m₀ s₀ m' s' := by
  refine ⟨hc.world, ⟨?_, ?_, ?_, ?_, ?_⟩, ⟨?_, ?_⟩, ?_, hc.sight.trans h.sight,
    h.grows.trans hc.grows⟩
  · rw [hc.sight]
    exact h.framed.covers.mono hc.grows
  · rw [hc.frame, hc.locals]
    exact h.framed.locals
  · rw [hc.frame, hc.sight]
    exact h.framed.entered
  · rw [hc.frame, hc.sight]
    exact h.framed.param
  · rw [hc.callers, hc.sight]
    exact h.framed.outer
  · rw [hc.sight]
    exact fun v p hv hp => (h.sees.captured v p hv hp).mono hc.grows
  · rw [hc.sight, hc.locals]
    intro v hv hp
    obtain ⟨z, hz, hgood⟩ := h.sees.plain v hv hp
    exact ⟨z, hz, hgood.mono hc.grows⟩
  · rw [hc.frame]
    exact h.entered

/-- A block with an entry in front runs the entry first. -/
theorem block_run (entry : Option Lowered.Stmt) (ss : List Lowered.Stmt)
    (tail : Option Lowered.Expr) : c.block (Scheme.withEntry entry (.mk ss tail)) =
      Run.inBlock (do c.stmts entry.toList; (do c.stmts ss; c.option tail)) := by
  rw [block_withEntry, Run.Context.block, stmts_append, bind_assoc]

/-! ## Expressions -/

/-- A literal. -/
theorem expr_lit (l : Syntax.Literal) : ExprAgrees holds r cx c c' (.lit l) := by
  intro scope vis x m₀ s₀ m s hsite hscoped hx hpoint
  rw [Scheme.expr] at hx
  cases hx
  rw [Run.Context.expr, Context.expr]
  exact .ok (hpoint.ends_of_data (.ofLiteral l))

/-- A global. -/
theorem expr_global (name : String) : ExprAgrees holds r cx c c' (.global name) := by
  intro scope vis x m₀ s₀ m s hsite hscoped hx hpoint
  rw [Scheme.expr] at hx
  cases hx
  rw [Run.Context.expr, Context.expr]
  unfold Run.readGlobal readGlobal
  rw [Exec.get_bind, Exec.get_bind]
  have hglobal := hpoint.world.globals name
  have hfree := hpoint.world.global_free name
  generalize m.globals.find? name = a at hglobal
  generalize s.globals.find? name = b at hglobal hfree
  cases hglobal with
  | none => exact .failed _ _ _ rfl
  | some hxy => exact .ok ⟨hpoint, hxy, (hfree _ rfl).imp fun _ => .inl⟩

/-- A function. -/
theorem expr_fn (name : String) : ExprAgrees holds r cx c c' (.fn name) := by
  intro scope vis x m₀ s₀ m s hsite hscoped hx hpoint
  rw [Scheme.expr] at hx
  cases hx
  rw [Run.Context.expr, Context.expr]
  refine .ok ⟨hpoint, .fn name, fun n hn => ?_, fun n held hn => (by cases hn)⟩
  cases hn
  exact hscoped

/-- An operator of one operand. -/
theorem expr_unary {op : Syntax.UnaryOp} {e : Bound.Expr} (he : ExprAgrees holds r cx c c' e) :
    ExprAgrees holds r cx c c' (.unary op e) := by
  intro scope vis x m₀ s₀ m s hsite hscoped hx hpoint
  rw [Scheme.expr] at hx
  obtain ⟨e', he', hx⟩ := Lower.bind_eq_ok.mp hx
  cases hx
  rw [Run.Context.expr, Context.expr]
  refine (he hsite hscoped he' hpoint).bind fun y m₁ z s₁ hends => ?_
  exact Agree.ofExcept (hends.same.unary op) fun y' z' hdata => hends.point.ends_of_data hdata

/-- An operator of two operands. -/
theorem expr_binary {op : Syntax.BinaryOp} {e f : Bound.Expr} (he : ExprAgrees holds r cx c c' e)
    (hf : ExprAgrees holds r cx c c' f) : ExprAgrees holds r cx c c' (.binary op e f) := by
  intro scope vis x m₀ s₀ m s hsite hscoped hx hpoint
  rw [Scheme.expr] at hx
  obtain ⟨e', he', hx⟩ := Lower.bind_eq_ok.mp hx
  obtain ⟨f', hf', hx⟩ := Lower.bind_eq_ok.mp hx
  cases hx
  rw [Run.Context.expr, Context.expr]
  refine (he hsite hscoped.1 he' hpoint).bind fun y m₁ z s₁ hends => ?_
  have hright : Agree (fun w m w' s => Same r w w' ∧ Point holds r cx scope vis m₀ s₀ m s)
      (Returns holds r s₀) (holding [y] (c.expr f') m₁) (c'.expr f s₁) :=
    agree_holding (fun _ _ _ _ vs h => ⟨h.1, h.2.pending vs⟩) (fun _ _ _ _ vs h => h.pending vs)
      ((hf hsite hscoped.2 hf' (hends.point.pending _)).imp (fun _ _ _ _ h => ⟨h.same, h.point⟩)
        fun _ _ _ _ => id)
  exact (Agree.binary (M := fun m s => Point holds r cx scope vis m₀ s₀ m s) op hends.same
    hends.point hright).imp (fun _ _ _ _ h => h.2.ends_of_data h.1) fun _ _ _ _ => id

section

variable (h : Alongside holds r c c')

include h

/-- A variable. -/
theorem expr_var (v : VarId) : ExprAgrees holds r cx c c' (.var v) := by
  intro scope vis x m₀ s₀ m s hsite hscoped hx hpoint
  rw [Scheme.expr] at hx
  rw [Context.expr, h.tree, h.plans]
  refine (hpoint.read h.sound hsite hscoped hx).imp (fun y m z s hends => ?_) fun _ _ _ _ => id
  exact hends.imp fun c hc => .inr ⟨v, List.mem_singleton_self _, hc⟩

/-- A call. -/
theorem expr_call {f : Bound.Expr} {es : List Bound.Expr} (hf : ExprAgrees holds r cx c c' f)
    (hes : ExprsAgree holds r cx c c' es) : ExprAgrees holds r cx c c' (.call f es) := by
  intro scope vis x m₀ s₀ m s hsite hscoped hx hpoint
  rw [Scheme.expr] at hx
  obtain ⟨es', hes', hx⟩ := Lower.bind_eq_ok.mp hx
  obtain ⟨f', hf', hx⟩ := Lower.bind_eq_ok.mp hx
  cases hx
  rw [Run.Context.expr, Context.expr]
  refine (hf hsite hscoped.1 hf' hpoint).bind fun y m₁ z s₁ hends => ?_
  have hargs := agree_holding (l := [y])
    (fun _ _ _ _ vs h => ⟨h.1.pending vs, h.2⟩) (fun _ _ _ _ vs h => h.pending vs)
    (hes hsite hscoped.2.1 hscoped.2.2 hes' (hends.point.restart.pending ([y] ++ m₁.frame.pending)))
  refine (hargs.imp (fun _ _ _ _ => id) fun _ _ _ _ h => h.trans hends.point.grows).bind
    fun ys m₂ zs s₂ ⟨hpoint₂, hsame⟩ => ?_
  -- what the callee keeps is still alive once the arguments are evaluated
  have hgood : Good r.tree r.plans s₂.heap (Callable r m₂) z := by
    refine (hends.good.mono hpoint₂.grows).imp fun held hkept k hk => ?_
    exact hpoint₂.alive h.sound hsite hk (hpoint₂.sight.symm ▸ hkept)
  refine (h.call m₂ s₂ y z ys zs hpoint₂.world hends.same hgood hsame).imp ?_ ?_
  · intro w m₃ w' s₃ hcalled
    exact ⟨hends.point.trans (hpoint₂.of_called hcalled), hcalled.same,
      hcalled.free.imp fun _ => .inl⟩
  · exact fun _ _ _ _ => False.elim

/-- What stands in a block, as a block that opens a scope. -/
theorem block_opens {b : Bound.Block} (hb : BlockAgrees holds r cx c c' b) {scope i : ScopeId}
    {vis : VarId → Prop} {kind : ScopeKind} {b' : Lowered.Block} {m₀ m : Machine} {s₀ s : Store}
    (hsite : Site r cx scope vis) (hscoped : b.Scoped r.tree holds scope vis)
    (hopens : b.scope = some i ∧ Bound.Opens r.tree scope i kind) (hkind : kind ≠ .closure)
    (hb' : r.block cx b = .ok b') (hpoint : Point holds r cx scope vis m₀ s₀ m s) :
    Agree (fun y m z s => Point holds r cx scope vis m₀ s₀ m s ∧
        (Bound.MayLeave r.tree holds i b.sources →
          Ends holds r cx scope vis (Reaches holds b.sources) m₀ s₀ y m z s))
      (Returns holds r s₀) (c.block b' m) (c'.block b s) := by
  obtain ⟨o, ss, tail⟩ := b
  obtain ⟨rfl, x, hx, rfl, hpar⟩ := hopens
  rw [Scheme.block] at hb'
  obtain ⟨entry, hentry, hb'⟩ := Lower.bind_eq_ok.mp hb'
  obtain ⟨ss', hss', hb'⟩ := Lower.bind_eq_ok.mp hb'
  obtain ⟨tail', htail', hb'⟩ := Lower.bind_eq_ok.mp hb'
  cases hb'
  rw [block_run, Context.block, h.plans]
  exact agree_block h.sound h.unit hsite hpoint hx hpar hentry (fun m₁ s₁ hpoint₁ =>
    hb (hsite.block h.sound hx hpar hkind) hscoped.1 hscoped.2 hss' htail' hpoint₁) hkind

/-- A block. -/
theorem expr_block {b : Bound.Block} (hb : BlockAgrees holds r cx c c' b) :
    ExprAgrees holds r cx c c' (.block b) := by
  intro scope vis x m₀ s₀ m s hsite hscoped hx hpoint
  rw [Scheme.expr] at hx
  obtain ⟨b', hb', hx⟩ := Lower.bind_eq_ok.mp hx
  cases hx
  obtain ⟨hscoped, i, hi, hopens, hleave⟩ := hscoped
  rw [Run.Context.expr, Context.expr]
  exact (block_opens h hb hsite hscoped ⟨hi, hopens⟩ (fun h => nomatch h) hb' hpoint).imp
    (fun _ _ _ _ hends => hends.2 hleave) fun _ _ _ _ => id

/-- A branch. -/
theorem expr_cond {e : Bound.Expr} {b : Bound.Block} {n : Option Bound.Expr}
    (he : ExprAgrees holds r cx c c' e) (hb : BlockAgrees holds r cx c c' b)
    (hn : OptionAgrees holds r cx c c' n) : ExprAgrees holds r cx c c' (.cond e b n) := by
  intro scope vis x m₀ s₀ m s hsite hscoped hx hpoint
  rw [Scheme.expr] at hx
  obtain ⟨e', he', hx⟩ := Lower.bind_eq_ok.mp hx
  obtain ⟨b', hb', hx⟩ := Lower.bind_eq_ok.mp hx
  obtain ⟨n', hn', hx⟩ := Lower.bind_eq_ok.mp hx
  cases hx
  obtain ⟨hse, hsb, ⟨i, hi, hopens, hleave⟩, hsn⟩ := hscoped
  rw [Run.Context.expr, Context.expr]
  refine Agree.branch (M := fun m s => Point holds r cx scope vis m₀ s₀ m s)
    ((he hsite hse he' hpoint).imp (fun _ _ _ _ h => ⟨h.same, h.point⟩) fun _ _ _ _ => id) ?_ ?_
  · intro m₁ s₁ hpoint₁
    refine (block_opens h hb hsite hsb ⟨hi, hopens⟩ (fun h => nomatch h) hb' hpoint₁).imp
      (fun _ _ _ _ hends => (hends.2 hleave).imp fun k hk => ?_) fun _ _ _ _ => id
    exact hk.imp (List.mem_append_left _) fun ⟨v, hv, hh⟩ => ⟨v, List.mem_append_left _ hv, hh⟩
  · intro m₁ s₁ hpoint₁
    refine (hn hsite hsn hn' hpoint₁).imp (fun _ _ _ _ hends => hends.imp fun k hk => ?_)
      fun _ _ _ _ => id
    exact hk.imp (List.mem_append_right _) fun ⟨v, hv, hh⟩ => ⟨v, List.mem_append_right _ hv, hh⟩

/-- A loop. -/
theorem expr_loop {e : Bound.Expr} {b : Bound.Block} (he : ExprAgrees holds r cx c c' e)
    (hb : BlockAgrees holds r cx c c' b) : ExprAgrees holds r cx c c' (.loop e b) := by
  intro scope vis x m₀ s₀ m s hsite hscoped hx hpoint
  rw [Scheme.expr] at hx
  obtain ⟨e', he', hx⟩ := Lower.bind_eq_ok.mp hx
  obtain ⟨b', hb', hx⟩ := Lower.bind_eq_ok.mp hx
  cases hx
  obtain ⟨hse, hsb, i, hi, hopens⟩ := hscoped
  rw [Run.Context.expr, Context.expr, h.turns]
  refine (Agree.iterate (R := fun _ => Keeps r)
    (M := fun m s => Point holds r cx scope vis m₀ s₀ m s) ?_ ?_ _ m s hpoint).bind
    fun _ m₁ _ s₁ hpoint₁ => .ok (hpoint₁.ends_of_data .unit)
  · intro m₁ s₁ hpoint₁
    exact (he hsite hse he' hpoint₁).imp (fun _ _ _ _ h => ⟨h.same, h.point⟩) fun _ _ _ _ => id
  · intro m₁ s₁ hpoint₁
    exact (block_opens h hb hsite hsb ⟨hi, hopens⟩ (fun h => nomatch h) hb' hpoint₁).imp
      (fun _ _ _ _ hends => hends.1) fun _ _ _ _ => id

/-- A closure literal. -/
theorem expr_closure (k : ClosureId) : ExprAgrees holds r cx c c' (.closure k) := by
  intro scope vis x m₀ s₀ m s hsite hscoped hx hpoint
  rw [Scheme.expr] at hx
  obtain ⟨name, hname, hx⟩ := Lower.bind_eq_ok.mp hx
  obtain ⟨b, hb, hx⟩ := Lower.bind_eq_ok.mp hx
  obtain ⟨op, hop, hx⟩ := Lower.bind_eq_ok.mp hx
  cases hx
  obtain ⟨l, hl, hd, hneeds⟩ := hscoped
  rw [Context.expr, h.tree, h.plans]
  refine (hpoint.close h.sound h.unit hsite hl hd hneeds (Lower.orInconsistent_eq_ok.mp hname)
    (Lower.orInconsistent_eq_ok.mp hb) hop rfl).imp (fun _ _ _ _ hends => ?_) fun _ _ _ _ => id
  exact hends.imp fun _ hc => .inl (hc ▸ List.mem_singleton_self _)

end

/-- No expression. -/
theorem option_none : OptionAgrees holds r cx c c' none := by
  intro scope vis x m₀ s₀ m s hsite hscoped hx hpoint
  rw [Scheme.option] at hx
  cases hx
  rw [Run.Context.option, Context.option]
  exact .ok (hpoint.ends_of_data .unit)

/-- An expression that may be missing. -/
theorem option_some {e : Bound.Expr} (he : ExprAgrees holds r cx c c' e) :
    OptionAgrees holds r cx c c' (some e) := by
  intro scope vis x m₀ s₀ m s hsite hscoped hx hpoint
  rw [Scheme.option] at hx
  obtain ⟨e', he', hx⟩ := Lower.bind_eq_ok.mp hx
  cases hx
  rw [Run.Context.option, Context.option]
  exact he hsite hscoped he' hpoint

/-- No arguments. -/
theorem exprs_nil : ExprsAgree holds r cx c c' [] := by
  intro scope vis xs m₀ s₀ m s hsite hscoped hesc hx hpoint
  rw [Scheme.exprs] at hx
  cases hx
  rw [Run.Context.exprs, Context.exprs]
  exact .ok ⟨hpoint, .nil⟩

/-- An argument and more. -/
theorem exprs_cons {e : Bound.Expr} {es : List Bound.Expr} (he : ExprAgrees holds r cx c c' e)
    (hes : ExprsAgree holds r cx c c' es) : ExprsAgree holds r cx c c' (e :: es) := by
  intro scope vis xs m₀ s₀ m s hsite hscoped hesc hx hpoint
  rw [Scheme.exprs] at hx
  obtain ⟨e', he', hx⟩ := Lower.bind_eq_ok.mp hx
  obtain ⟨es', hes', hx⟩ := Lower.bind_eq_ok.mp hx
  cases hx
  rw [Run.Context.exprs, Context.exprs]
  refine (he hsite hscoped.1 he' hpoint).bind fun y m₁ z s₁ hends => ?_
  have hrest := agree_holding (l := [y])
    (fun _ _ _ _ vs h => ⟨h.1.pending vs, h.2⟩) (fun _ _ _ _ vs h => h.pending vs)
    (hes hsite hscoped.2 (fun e he => hesc e (List.mem_cons_of_mem _ he)) hes'
      (hends.point.restart.pending ([y] ++ m₁.frame.pending)))
  refine (hrest.imp (fun _ _ _ _ => id) fun _ _ _ _ h => h.trans hends.point.grows).bind
    fun ys m₂ zs s₂ ⟨hpoint₂, hsame⟩ => ?_
  exact .ok ⟨hends.point.trans hpoint₂, .cons ⟨hends.same,
    (hends.free (hesc e List.mem_cons_self)).mono hpoint₂.grows⟩ hsame⟩

/-! ## Statements -/

/-- A write to a variable at or around the place. A variable of the frame is written as `plain`
says, which `run` tells the meaning of. -/
theorem write_agrees (h : Alongside holds r c c') {e : Bound.Expr}
    (he : ExprAgrees holds r cx c c' e) {scope : ScopeId} {vis : VarId → Prop} {v : VarId}
    {x : Variable} {plain : VarId → String → Lowered.Expr → Lowered.Stmt} {value : Lowered.Expr}
    {y : Lowered.Stmt} {m₀ m : Machine} {s₀ s : Store} (hsite : Site r cx scope vis)
    (hscoped : e.Scoped r.tree holds scope vis) (hx : r.tree.vars[v]? = some x)
    (hxs : AroundEq r.tree.scopes x.scope scope)
    (hkept : ∀ σ held, Kept r.tree r.plans (Reaches holds e.sources) scope σ held →
      Kept r.tree r.plans (holds v) x.scope σ held)
    (hvalue : r.expr cx e = .ok value) (hy : r.write cx v plain value = .ok y)
    {f : String → Run.Val → Run.Eval Unit}
    (hrun : ∀ name, c.stmt (plain v name value) = (do f name (← c.expr value)))
    (hlocal : ∀ name m s u, Point holds r cx scope vis m₀ s₀ m s →
      r.plans.varPlan.find? v = none → f name u m = writeLocal v u m)
    (hpoint : Point holds r cx scope vis m₀ s₀ m s) :
    Agree (fun _ m _ s => Point holds r cx scope (fun w => vis w ∨ w = v) m₀ s₀ m s)
      (Returns holds r s₀) (c.stmt y m) ((do writeVar r.tree r.plans v (← c'.expr e)) s) := by
  unfold Scheme.write at hy
  obtain ⟨o, ho, hy⟩ := Lower.bind_eq_ok.mp hy
  rcases place?_eq_ok ho with ⟨hplain, rfl⟩ | ⟨p, t, f, ref, hvp, ht, hf, href, rfl⟩
  · obtain ⟨name, -, hy⟩ := Lower.bind_eq_ok.mp hy
    cases hy
    rw [hrun]
    refine (he hsite hscoped hvalue hpoint).bind fun u m₁ z s₁ hends => ?_
    rw [hlocal name m₁ s₁ u hends.point hplain]
    exact hends.point.writeLocal hx hplain hends.same (hends.good.imp (hkept _))
  · cases hy
    rw [Run.Context.stmt]
    refine (he hsite hscoped hvalue hpoint).bind fun u m₁ z s₁ hends => ?_
    exact hends.point.store h.sound hsite hx hxs hvp ht hf href hends.same
      (hends.good.imp (hkept _))

/-- A declaration. -/
theorem stmt_bind (h : Alongside holds r c c') {v : VarId} {e : Bound.Expr}
    (he : ExprAgrees holds r cx c c' e) : StmtAgrees holds r cx c c' (.bind v e) := by
  intro scope vis x m₀ s₀ m s hsite hscoped hx hpoint
  rw [Scheme.stmt] at hx
  obtain ⟨value, hvalue, hx⟩ := Lower.bind_eq_ok.mp hx
  obtain ⟨hse, ⟨y, hy, rfl⟩, hhold⟩ := hscoped
  rw [Context.stmt, h.tree, h.plans, after_bind]
  exact write_agrees h he hsite hse hy (.inl rfl) (fun σ held hk => hk.imp hhold) hvalue hx
    (f := fun _ => writeLocal v) (fun name => by rw [Run.Context.stmt]) (fun _ _ _ _ _ _ => rfl)
    hpoint

/-- A write to a variable that has been declared. -/
theorem stmt_assign_var (h : Alongside holds r c c') {v : VarId} {e : Bound.Expr}
    (he : ExprAgrees holds r cx c c' e) : StmtAgrees holds r cx c c' (.assign (.var v) e) := by
  intro scope vis x m₀ s₀ m s hsite hscoped hx hpoint
  rw [Scheme.stmt] at hx
  obtain ⟨value, hvalue, hx⟩ := Lower.bind_eq_ok.mp hx
  obtain ⟨hse, hv, hhold, hrise⟩ := hscoped
  obtain ⟨y, hy, hys, -⟩ := hsite.reach v hv
  rw [Context.stmt, h.tree, h.plans]
  refine (write_agrees h he hsite hse hy hys (fun σ held hk => hk.write h.sound.bound.preorder hys
    hhold fun c k hc hk => hrise c k y hc hk hy) hvalue hx (f := fun name => assignLocal v name)
    (fun name => by rw [Run.Context.stmt]) (fun name m₁ s₁ u hpoint₁ hplain => ?_) hpoint).imp
    (fun _ _ _ _ hp => ?_) fun _ _ _ _ => id
  · obtain ⟨z, hz, -⟩ := hpoint₁.sees.plain v hv hplain
    obtain ⟨z', hz', -⟩ := exists_of_rel (hz ▸ hpoint₁.framed.locals v)
    exact assignLocal_run hz'
  · rw [after_of_declared rfl]
    exact hp.imp fun w => .inl

/-- A write to a global. -/
theorem stmt_assign_global {name : String} {e : Bound.Expr} (he : ExprAgrees holds r cx c c' e) :
    StmtAgrees holds r cx c c' (.assign (.global name) e) := by
  intro scope vis x m₀ s₀ m s hsite hscoped hx hpoint
  rw [Scheme.stmt] at hx
  obtain ⟨value, hvalue, hx⟩ := Lower.bind_eq_ok.mp hx
  cases hx
  rw [Run.Context.stmt, Context.stmt, after_of_declared rfl]
  refine (he hsite hscoped.1 hvalue hpoint).bind fun y m₁ z s₁ hends => ?_
  show Agree _ _
    ((if m₁.globals.contains name then Run.writeGlobal name y
      else Exec.fail (.uninitializedGlobal name) : Run.Eval Unit) m₁)
    ((if s₁.globals.contains name then writeGlobal name z
      else Exec.fail (.uninitializedGlobal name) : Eval Unit) s₁)
  rw [SortedMap.contains_eq_of_rel (hends.point.world.globals name)]
  split
  · have hp := hends.point
    refine .ok ⟨hp.world.writeGlobal name hends.same (hends.free hscoped.2),
      ⟨hp.framed.covers, hp.framed.locals, hp.framed.entered, hp.framed.param, hp.framed.outer⟩,
      ⟨hp.sees.captured, hp.sees.plain⟩, hp.entered, hp.sight, hp.grows⟩
  · exact .failed _ _ _ rfl

/-- An expression as a statement. -/
theorem stmt_expr {e : Bound.Expr} (he : ExprAgrees holds r cx c c' e) :
    StmtAgrees holds r cx c c' (.expr e) := by
  intro scope vis x m₀ s₀ m s hsite hscoped hx hpoint
  rw [Scheme.stmt] at hx
  obtain ⟨value, hvalue, hx⟩ := Lower.bind_eq_ok.mp hx
  cases hx
  rw [Run.Context.stmt, Context.stmt, after_of_declared rfl]
  exact (he hsite hscoped hvalue hpoint).bind fun y m₁ z s₁ hends => .ok hends.point

/-- A return. -/
theorem stmt_ret {e : Option Bound.Expr} (he : OptionAgrees holds r cx c c' e) :
    StmtAgrees holds r cx c c' (.ret e) := by
  intro scope vis x m₀ s₀ m s hsite hscoped hx hpoint
  rw [Scheme.stmt] at hx
  obtain ⟨value, hvalue, hx⟩ := Lower.bind_eq_ok.mp hx
  cases hx
  rw [Run.Context.stmt, Context.stmt]
  refine (he hsite hscoped.1 hvalue hpoint).bind fun y m₁ z s₁ hends => ?_
  exact .returned (hends.returns hscoped.2)

/-- No statements. -/
theorem stmts_nil : StmtsAgree holds r cx c c' [] := by
  intro scope vis xs m₀ s₀ m s hsite hscoped hx hpoint
  rw [Scheme.stmtList] at hx
  cases hx
  rw [Run.Context.stmts, Context.stmts, Bound.after_nil]
  exact .ok hpoint

/-- A statement and more. -/
theorem stmts_cons (h : Alongside holds r c c') {x : Bound.Stmt} {xs : List Bound.Stmt}
    (hx : StmtAgrees holds r cx c c' x) (hxs : StmtsAgree holds r cx c c' xs) :
    StmtsAgree holds r cx c c' (x :: xs) := by
  intro scope vis ys m₀ s₀ m s hsite hscoped hy hpoint
  rw [Scheme.stmtList] at hy
  obtain ⟨x', hx', hy⟩ := Lower.bind_eq_ok.mp hy
  obtain ⟨xs', hxs', hy⟩ := Lower.bind_eq_ok.mp hy
  cases hy
  rw [Run.Context.stmts, Context.stmts, Bound.after_cons]
  exact (hx hsite hscoped.1 hx' hpoint).bind fun _ m₁ _ s₁ hpoint₁ =>
    hxs (hsite.declare h.sound hscoped.1) hscoped.2 hxs' hpoint₁

/-- What stands in a block. -/
theorem block_mk (h : Alongside holds r c c') {o : Option ScopeId} {ss : List Bound.Stmt}
    {tail : Option Bound.Expr} (hss : StmtsAgree holds r cx c c' ss)
    (htail : OptionAgrees holds r cx c c' tail) : BlockAgrees holds r cx c c' (.mk o ss tail) := by
  intro scope vis xs x m₀ s₀ m s hsite hsss hst hxs hx hpoint
  refine (hss hsite hsss hxs hpoint).bind fun _ m₁ _ s₁ hpoint₁ => ?_
  refine (htail (hsite.after h.sound hsss) hst hx hpoint₁).imp (fun _ _ _ _ hends => ?_)
    fun _ _ _ _ => id
  exact ⟨hends.point.imp fun _ => .inl, hends.same, hends.good⟩

end ClosureEnv.Run.Lasting
