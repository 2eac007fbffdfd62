import ClosureEnv.Proofs.Cells.Cases

/-!
# Calls in cells

Bodies are evaluated alike if calls are, which follows from the cases by recursion over the body
(`expr_agrees`). A call gives each parameter a cell, which stands for the slot that the environment
of the body holds it in from the start, or belongs to the frame (`Point.declareParams`). So what a
call runs is run alike (`agree_function`, `agree_closure`), and by induction on how much fuel there
is calls agree (`callsAgree`).
-/

namespace ClosureEnv.Run.Cells

open Lowered (Scheme)

variable {holds : VarId → ClosureId → Prop} {r : Scheme} {c : Direct.Context}
  {c' : Lasting.Context} {scope i : ScopeId} {vis : VarId → Prop} {base : Nat} {ds : List VarId}
  {X Y : Twin} {x : Direct.Val} {y : Lasting.Val} {d : Direct.Store} {s : Lasting.Store}

/-! ## Bodies -/

mutual

/-- Every expression is evaluated alike. -/
theorem expr_agrees (h : Alongside holds r c c') : ∀ e : Bound.Expr, ExprAgrees holds r c c' e
  | .lit l => expr_lit l
  | .var v => expr_var h v
  | .global name => expr_global name
  | .fn name => expr_fn name
  | .unary _ e => expr_unary (expr_agrees h e)
  | .binary _ e f => expr_binary (expr_agrees h e) (expr_agrees h f)
  | .call f es => expr_call h (expr_agrees h f) (exprs_agree h es)
  | .block b => expr_block h (block_agrees h b)
  | .cond e b n => expr_cond h (expr_agrees h e) (block_agrees h b) (option_agrees h n)
  | .loop e b => expr_loop h (expr_agrees h e) (block_agrees h b)
  | .closure k => expr_closure h k

/-- Every optional expression is evaluated alike. -/
theorem option_agrees (h : Alongside holds r c c') :
    ∀ e : Option Bound.Expr, OptionAgrees holds r c c' e
  | none => option_none
  | some e => option_some (expr_agrees h e)

/-- All arguments are evaluated alike. -/
theorem exprs_agree (h : Alongside holds r c c') :
    ∀ es : List Bound.Expr, ExprsAgree holds r c c' es
  | [] => exprs_nil
  | e :: es => exprs_cons (expr_agrees h e) (exprs_agree h es)

/-- What stands in any block is run alike. -/
theorem block_agrees (h : Alongside holds r c c') : ∀ b : Bound.Block, BlockAgrees holds r c c' b
  | .mk _ ss tail => block_mk h (stmts_agree h ss) (option_agrees h tail)

/-- Every statement is run alike. -/
theorem stmt_agrees (h : Alongside holds r c c') : ∀ x : Bound.Stmt, StmtAgrees holds r c c' x
  | .bind _ e => stmt_bind h (expr_agrees h e)
  | .assign (.var _) e => stmt_assign_var h (expr_agrees h e)
  | .assign (.global _) e => stmt_assign_global (expr_agrees h e)
  | .expr e => stmt_expr (expr_agrees h e)
  | .ret e => stmt_ret (option_agrees h e)

/-- All statements are run alike. -/
theorem stmts_agree (h : Alongside holds r c c') :
    ∀ ss : List Bound.Stmt, StmtsAgree holds r c c' ss
  | [] => stmts_nil
  | x :: xs => stmts_cons h (stmt_agrees h x) (stmts_agree h xs)

end

section

variable (h : Alongside holds r c c')

include h

/-- A block without a scope of its own is run alike. -/
theorem agree_plain {b : Bound.Block} (hreach : r.tree.Reach scope vis) (hscope : b.scope = none)
    (hb : b.Scoped r.tree holds scope vis) (hn : b.binds.Nodup) (htests : ∀ v ∈ b.tested, Own r v)
    (hpoint : Point r vis base X) (hunborn : Unborn r (Within r scope) X b.binds) :
    Agree (Leaves r (Within r scope) base b.binds X) (Leaves r (Within r scope) base b.binds X)
      (c.block b X.direct) (c'.block b X.lasting) := by
  obtain ⟨o, ss, tail⟩ := b
  obtain rfl : o = none := hscope
  rw [Bound.Block.binds] at hn hunborn ⊢
  rw [Bound.Block.tested] at htests
  have hagree := (block_agrees h (.mk none ss tail) hreach hb.1 hb.2 hn htests hpoint hunborn).imp
    (fun _ _ _ _ => Gives.leaves) fun _ _ _ _ => id
  rw [Direct.Context.block, Lasting.Context.block]
  exact hagree.atEnd (fun d => { d with sight := X.direct.sight })
    (fun s => { s with sight := X.lasting.sight })
    (fun _ _ _ _ hleaves => hleaves.congr rfl rfl rfl rfl id)
    fun _ _ _ _ hleaves => hleaves.congr rfl rfl rfl rfl id

/-- The body of a closure is run alike, whether it opens a scope or not. -/
theorem agree_closureBody {e : Bound.Expr} (hreach : r.tree.Reach scope vis)
    (he : Bound.BodyScoped r.tree holds scope vis e) (hn : e.binds.Nodup)
    (htests : ∀ v ∈ e.tested, Own r v) (hpoint : Point r vis base X)
    (hunborn : Unborn r (Within r scope) X e.binds) :
    Agree (Leaves r (Within r scope) base e.binds X) (Leaves r (Within r scope) base e.binds X)
      (c.expr e X.direct) (c'.expr e X.lasting) := by
  unfold Bound.BodyScoped at he
  split at he
  · rw [Bound.Expr.binds] at hn hunborn ⊢
    rw [Bound.Expr.tested] at htests
    rw [Direct.Context.expr, Lasting.Context.expr]
    exact agree_plain h hreach rfl he hn htests hpoint hunborn
  · exact (expr_agrees h e hreach he hn htests hpoint hunborn).imp (fun _ _ _ _ => Gives.leaves)
      fun _ _ _ _ => id

end

/-! ## Parameters -/

/-- A variable of a scope that is to be declared has its value already, in a slot that is nobody's
home or in the frame. -/
def Given (r : Scheme) (i : ScopeId) (X : Twin) (v : VarId) (y : Lasting.Val) : Prop :=
  (r.plans.varPlan.find? v = none → X.lasting.locals.find? v = some y) ∧
    ∀ p, r.plans.varPlan.find? v = some p → ∃ a j, Seat r (Within r i) X.lasting.sight v a ∧
      X.lasting.heap[a]? = some j ∧ j.slots.find? v = some y ∧ ∀ c, X.homes c ≠ some (a, v)

/-- The slot of a variable is nobody's home yet when another one has been declared. -/
theorem Given.later {v w : VarId} (h : Given r i X w y) (hw : w ≠ v)
    (hXY : Later r (Within r i) base [v] X Y) (hlasting : Y.lasting = X.lasting) :
    Given r i Y w y := by
  unfold Given
  rw [hlasting]
  refine ⟨h.1, fun p hp => ?_⟩
  obtain ⟨a, j, ha, hj, hy, hfree⟩ := h.2 p hp
  refine ⟨a, j, ha, hj, hy, fun c hc => ?_⟩
  rcases hXY.new c a w hc with hold | ⟨-, hnew | ⟨hmem, -⟩⟩
  · exact hfree c hold
  · exact absurd (Array.getElem?_eq_some_iff.mp hj).1 (Nat.not_lt.mpr hnew)
  · exact hw (List.mem_singleton.mp hmem)

/-- A parameter gets its cell. -/
theorem Point.declareParam (h : Point r vis base X) {v : VarId}
    (hxy : Same r.tree r.plans X.homes x y) (hgiven : Given r i X v y) :
    ∃ μ, Reached r i (fun w => vis w ∨ w = v) base [v] X
      ⟨μ, X.direct.declare v x, X.lasting⟩ := by
  cases hp : r.plans.varPlan.find? v with
  | none =>
    refine ⟨_, h.declare_plain hp hxy fun w _ => ?_⟩
    split
    · next heq => exact heq ▸ hgiven.1 hp
    · rfl
  | some p =>
    obtain ⟨a, j, hseat, hj, hy, hfree⟩ := hgiven.2 p hp
    exact ⟨_, h.settle hseat hj hy hfree hxy⟩

/-- All parameters get their cells. -/
theorem Point.declareParams {params : List VarId} {xs : List Direct.Val} {ys : List Lasting.Val}
    (h : Point r vis base X) (hargs : List.Forall₂ (Same r.tree r.plans X.homes) xs ys)
    (hlen : ys.length = params.length) (hn : params.Nodup)
    (hgiven : ∀ e ∈ params.zip ys, Given r i X e.1 e.2) :
    ∃ μ, Reached r i (fun v => vis v ∨ v ∈ params) base params X
      ⟨μ, X.direct.declareParams params xs, X.lasting⟩ := by
  induction params generalizing X vis xs ys with
  | nil =>
    cases ys with
    | nil =>
      cases hargs
      exact ⟨X.homes, (h.reached i).imp fun v hv => hv.resolve_right List.not_mem_nil⟩
    | cons y ys => cases hlen
  | cons v params ih =>
    cases hargs with
    | nil => cases hlen
    | @cons x y xs ys hxy hargs =>
      rw [List.nodup_cons] at hn
      obtain ⟨μ, hY⟩ := h.declareParam hxy (hgiven (v, y) List.mem_cons_self)
      obtain ⟨μ', hZ⟩ := ih hY.point (hargs.imp fun _ _ hzw => hzw.mono hY.later.homes)
        (Nat.succ.inj hlen) hn.2 fun e he => by
          have hmem : e.1 ∈ params := (List.of_mem_zip he).1
          have hne : e.1 ≠ v := fun heq => hn.1 (heq ▸ hmem)
          exact (hgiven e (List.mem_cons_of_mem _ he)).later hne hY.later rfl
      refine ⟨μ', (hY.trans hZ).imp fun w hw => ?_⟩
      rw [List.mem_cons] at hw
      exact or_assoc.mpr hw

/-! ## Frames -/

/-- A body with a frame of its own. -/
theorem agree_inFrame {δ : Direct.Sight} {σ : Lasting.Sight} {locals : SortedMap VarId Lasting.Val}
    {params : List VarId} {xs : List Direct.Val} {body : Direct.Eval Direct.Val}
    {body' : Lasting.Eval Lasting.Val}
    (h : Agree (Leaves r (fun _ => False) X.direct.cells.size [] X)
      (Leaves r (fun _ => False) X.direct.cells.size [] X)
      (body ({ X.direct with sight := δ }.declareParams params xs))
      (body' { X.lasting with sight := σ, locals })) :
    Agree (Called r X) (fun _ _ _ _ => False) (Direct.inBody δ params xs body X.direct)
      (Lasting.inFrame σ locals body' X.lasting) := by
  have hvalue : Agree (Leaves r (fun _ => False) X.direct.cells.size [] X)
      (fun _ _ _ _ => False) _ _ := h.returning
  refine hvalue.atEnd (fun d => { d with sight := X.direct.sight })
    (fun s => { s with sight := X.lasting.sight, locals := X.lasting.locals })
    (fun _ _ _ _ hleaves => ?_) fun _ _ _ _ => False.elim
  exact ⟨hleaves.congr rfl rfl rfl rfl id, rfl, rfl, rfl⟩

/-- Two runs in a new frame. -/
def Twin.frame (X : Twin) (δ : Direct.Sight) (σ : Lasting.Sight)
    (locals : SortedMap VarId Lasting.Val) : Twin :=
  ⟨X.homes, { X.direct with sight := δ }, { X.lasting with sight := σ, locals }⟩

/-- They stand for one another still. -/
theorem World.frame (h : World r.tree r.plans X) (δ : Direct.Sight) (σ : Lasting.Sight)
    (locals : SortedMap VarId Lasting.Val) : World r.tree r.plans (X.frame δ σ locals) :=
  h.congr rfl rfl rfl rfl h.depth

section

variable (hr : r.Sound holds) {z : Scope} (hz : r.tree.scopes[i]? = some z)
  (hkind : z.kind ≠ .block)

include hr

/-- Where the body of a closure or a function begins, what it needs from outside is visible. -/
theorem point_enter {params : List VarId} {δ : Direct.Sight} {σ : Lasting.Sight}
    {locals : SortedMap VarId Lasting.Val} (h : World r.tree r.plans X)
    (hvis : ∀ v, vis v → Linked r.plans X.homes δ σ v ∧
      ∃ x, r.tree.vars[v]? = some x ∧ Around r.tree.scopes x.scope i) :
    Point r vis X.direct.cells.size ((X.frame δ σ locals).enter r.plans i params) where
  world := World.enter hr (h.frame δ σ locals) i params
  captured v p hv hp := by
    obtain ⟨⟨p', c, a, hp', hc, ha, hμ⟩, x, hx, hxi⟩ := hvis v hv
    obtain ⟨o, ho, hox, -⟩ := hr.plans.clear_of_varPlan hp' hx
    have hoi : Around r.tree.scopes o i := hox.trans_around hr.bound.preorder hxi
    exact ⟨p', c, a, hp', hc, (find?_enter_of_around hr ho hoi _ params).trans ha, hμ⟩
  plain v hv hp := by
    obtain ⟨⟨p, -, -, hp', -⟩, -⟩ := hvis v hv
    cases hp.symm.trans hp'
  apart v w c hv hw hp := by
    obtain ⟨⟨p, -, -, hp', -⟩, -⟩ := hvis v hv
    cases hp.symm.trans hp'
  base := Nat.le_refl _

include hz hkind

/-- Parameters have their values once the scope of their body is entered. -/
theorem given_enter {params binds : List VarId} (hparams : Bound.ParamsOf r.tree i params binds)
    (h : World r.tree r.plans X) {ys : List Lasting.Val} (hlen : ys.length = params.length)
    (hlocals : X.lasting.locals = .ofList (params.zip ys)) :
    ∀ e ∈ params.zip ys, Given r i (X.enter r.plans i params) e.1 e.2 := by
  intro e he
  have hkeys : (params.zip ys).map Prod.fst = params := List.map_fst_zip (Nat.le_of_eq hlen.symm)
  have hnodup : ((params.zip ys).map Prod.fst).Nodup :=
    hkeys.symm ▸ (List.nodup_append.mp hparams.nodup).1
  have hvalue : X.lasting.locals.find? e.1 = some e.2 := by
    rw [hlocals]
    exact SortedMap.find?_ofList_of_mem hnodup he
  have hmem : e.1 ∈ params := (List.of_mem_zip he).1
  refine ⟨fun _ => ?_, fun p hp => ?_⟩
  · unfold Twin.enter
    dsimp only
    rw [Lasting.locals_enter]
    exact hvalue
  · -- A captured parameter has a slot in the environment that the body is entered with.
    obtain ⟨x, hx, hxi⟩ := hparams.scope e.1 hmem
    obtain ⟨o, hpo, hoi, -⟩ := hr.plans.clear_of_varPlan hp hx
    -- the environment of a body holds its parameters itself
    obtain rfl : o = i := (hxi ▸ hoi).resolve_right
      (hr.plans.not_around_of_varPlan hz hkind ⟨x, hx, .inl hxi.symm⟩ hp hpo)
    obtain ⟨u, hu, huo⟩ := id hpo
    obtain ⟨u', hu', hslot⟩ := hr.plans.linking.placed.var_plan e.1 p hp
    cases hu.symm.trans hu'
    have hnew : (X.lasting.enter r.plans o params).heap[X.lasting.heap.size]? =
        some ⟨p, X.lasting.sight.insert p X.lasting.heap.size, X.lasting.given u params⟩ := by
      rw [Lasting.enter_of_from hr hu huo]
      exact (Array.getElem?_push ..).trans (if_pos rfl)
    refine ⟨_, _, ⟨p, o, hp, hpo, .inl rfl, (find?_enter_self hr hpo _ _).1⟩, hnew, ?_,
      fun c hc => Nat.lt_irrefl _ (h.home_lt hc)⟩
    dsimp only
    rw [Lasting.find?_given, if_pos ⟨hslot, hmem⟩]
    exact hvalue

/-- What the body of a scope leaves behind is new, or was there before its entry. -/
theorem Leaves.of_enter {params : List VarId} (hds : ∀ v ∈ params ++ ds, r.tree.BelowEq i v)
    (hreached : Reached r i vis base params (X.enter r.plans i params) Y)
    (h : Leaves r (Within r i) base ds Y x d y s) : Leaves r (fun _ => False) base [] X x d y s := by
  obtain ⟨μ, hworld, hlater, hsame⟩ := h.trans hreached
  refine ⟨μ, hworld, (hlater.enter hr).imp fun v hv a hseat => ?_, hsame⟩
  obtain ⟨p, o, hp, ho, hoi, -⟩ := hseat
  exact absurd hoi (hr.plans.not_around_of_varPlan hz hkind (hds v hv) hp ho)

/-- A body is run alike on arguments that are the same. -/
theorem agree_call {params binds : List VarId} (hparams : Bound.ParamsOf r.tree i params binds)
    (hbinds : ∀ v ∈ binds, r.tree.BelowEq i v) (hw : World r.tree r.plans X) {δ : Direct.Sight}
    {σ : Lasting.Sight} (hvis : ∀ v, vis v → Linked r.plans X.homes δ σ v ∧
      ∃ x, r.tree.vars[v]? = some x ∧ Around r.tree.scopes x.scope i)
    {xs : List Direct.Val} {ys : List Lasting.Val}
    (hargs : List.Forall₂ (Same r.tree r.plans X.homes) xs ys) (hlen : ys.length = params.length)
    {body : Direct.Eval Direct.Val} {body' : Lasting.Eval Lasting.Val}
    (hbody : ∀ base Y, Point r (fun v => vis v ∨ v ∈ params) base Y →
      Unborn r (Within r i) Y binds → Agree (Leaves r (Within r i) base binds Y)
        (Leaves r (Within r i) base binds Y) (body Y.direct) (body' Y.lasting)) :
    Agree (Called r X) (fun _ _ _ _ => False) (Direct.inBody δ params xs body X.direct)
      (Lasting.inFrame σ (.ofList (params.zip ys))
        (Lasting.inBlock r.plans (some i) params body') X.lasting) := by
  refine agree_inFrame ?_
  let Y : Twin := X.frame δ σ (.ofList (params.zip ys))
  have hw₀ : World r.tree r.plans Y := hw.frame _ _ _
  have hn := List.nodup_append.mp hparams.nodup
  obtain ⟨μ, hreached⟩ := (point_enter hr hw hvis).declareParams hargs hlen hn.1
    (given_enter hr hz hkind hparams hw₀ hlen rfl)
  have hbefore : Unborn r (Around r.tree.scopes · i) Y binds := unborn_around hr hz hkind hbinds
  have hunborn := (hbefore.enter hr hw₀ params).reached hreached hn.2.2
  have hall : ∀ v ∈ params ++ binds, r.tree.BelowEq i v := List.forall_mem_append.mpr
    ⟨fun v hv => (hparams.scope v hv).imp fun x hx => ⟨hx.1, .inl hx.2.symm⟩, hbinds⟩
  refine (hbody _ _ hreached.point hunborn).atEnd id (fun s => { s with sight := σ })
    (fun _ _ _ _ h => ?_) (fun _ _ _ _ h => ?_) <;>
  · have hentered := Leaves.of_enter hr hz hkind hall hreached h
    have hsince : Leaves r (fun _ => False) X.direct.cells.size [] X _ _ _ _ :=
      hentered.since rfl rfl rfl
    exact hsince.congr rfl rfl rfl rfl id

end

/-! ## Calls -/

section

variable (h : Alongside holds r c c')

include h

/-- A function is run alike. -/
theorem agree_function {f : Function} (hf : f ∈ r.tree.fns) (hsyn : f.isSynthetic = false)
    (hw : World r.tree r.plans X) {xs : List Direct.Val} {ys : List Lasting.Val}
    (hargs : List.Forall₂ (Same r.tree r.plans X.homes) xs ys) :
    Agree (Called r X) (fun _ _ _ _ => False) (c.function f xs X.direct)
      (c'.function f ys X.lasting) := by
  have hb := h.sound.bound
  obtain ⟨hscoped, hscope, -, hparams⟩ := hb.fn_body f hf hsyn
  obtain ⟨n, hfn⟩ := Array.mem_iff_getElem?.mp hf
  obtain ⟨-, -, z, hz, hkind⟩ := hb.fn_scope n f hfn
  have hbelow := Bound.Block.Scoped.belowEq hb.preorder _ hscoped
  rw [hscope] at hbelow
  have hn := List.nodup_append.mp hparams.nodup
  unfold Direct.Context.function Lasting.Context.function
  rw [hargs.length_eq]
  split
  · exact .failed _ _ _ rfl
  · next hlen =>
    rw [bne_iff_ne, not_not] at hlen
    rw [h.plans]
    exact agree_call h.sound hz (fun h => nomatch hkind.symm.trans h) hparams hbelow hw
      (fun v hv => False.elim hv) hargs hlen fun base Y hpoint hunborn =>
        agree_plain h (.params hb hparams) hscope hscoped hn.2.1
          (fun v hv => h.tests v (.inl ⟨f, hf, hv⟩)) (hpoint.imp fun v => .inr) hunborn

/-- A closure is run alike. -/
theorem agree_closure {n : Nat} {k : Closure} (hk : r.tree.closures[n]? = some k)
    (hw : World r.tree r.plans X) {δ : Direct.Sight} {σ : Lasting.Sight}
    (hneeds : ∀ v, r.tree.Needs n v → Linked r.plans X.homes δ σ v) {xs : List Direct.Val}
    {ys : List Lasting.Val} (hargs : List.Forall₂ (Same r.tree r.plans X.homes) xs ys) :
    Agree (Called r X) (fun _ _ _ _ => False) (c.closure k δ xs X.direct)
      (c'.closure k σ ys X.lasting) := by
  have hb := h.sound.bound
  obtain ⟨hscoped, -, hparams⟩ := hb.closure_body n k hk
  have hreach := (ScopeTree.Reach.needs hb hk).or (.params hb hparams)
  obtain ⟨z, hz, hzk, -⟩ := hb.closure_scope n k hk
  have hkind := (hb.closure_iff _ z hz).mpr ⟨n, hzk⟩
  have htests (v : VarId) (hv : v ∈ k.body.tested) : Own r v :=
    h.tests v (.inr (.inl ⟨k, Array.mem_of_getElem? hk, hv⟩))
  unfold Direct.Context.closure Lasting.Context.closure
  rw [hargs.length_eq, h.direct, h.lasting]
  split
  · exact .failed _ _ _ rfl
  · next hlen =>
    rw [bne_iff_ne, not_not] at hlen
    rw [h.plans]
    refine agree_call h.sound hz (fun h => nomatch hkind.symm.trans h) hparams
      (fun v => hscoped.belowEq hb.preorder) hw (fun v hv => ⟨hneeds v hv, ?_⟩) hargs hlen
      fun base Y => agree_closureBody h hreach hscoped (List.nodup_append.mp hparams.nodup).2.1
        htests
    obtain ⟨-, x, -, hx⟩ := hb.exists_of_needs hv
    exact ⟨x, hx, hb.around_of_needs hv hk hx⟩

/-- Whatever a value stands for is run alike. -/
theorem agree_apply (hw : World r.tree r.plans X) (hxy : Same r.tree r.plans X.homes x y)
    {xs : List Direct.Val} {ys : List Lasting.Val}
    (hargs : List.Forall₂ (Same r.tree r.plans X.homes) xs ys) :
    Agree (Called r X) (fun _ _ _ _ => False) (c.apply x xs X.direct) (c'.apply y ys X.lasting) := by
  obtain ⟨halike, hfn⟩ := hxy
  have htext : x.text = y.text := halike.text_eq
  unfold Direct.Context.apply Lasting.Context.apply
  cases halike with
  -- Names of functions are resolved in the tree, and closures by their handle; nothing else can be
  -- called.
  | fn name =>
    unfold Direct.Context.function? Lasting.Context.function?
    dsimp only
    rw [h.direct, h.lasting]
    obtain ⟨f, hf, hname, hsyn⟩ := hfn name rfl
    cases hfind : r.tree.fns.find? fun f => f.name == name && !f.isSynthetic with
    | none =>
      have := Array.find?_eq_none.mp hfind f hf
      simp [hname, hsyn] at this
    | some g =>
      obtain ⟨hg, hgsyn⟩ := ScopeTree.source_of_find? hfind
      exact agree_function h hg hgsyn hw hargs
  | @closure name held held' hheld =>
    obtain ⟨k, hk⟩ := hheld.known
    dsimp only
    rw [h.direct, h.lasting, hheld.closure, hk]
    exact agree_closure h hk hw hheld.needs hargs
  | _ =>
    dsimp only
    rw [htext]
    exact .failed _ _ _ rfl

end

/-- Counted calls end alike. -/
theorem agree_counted {body : Direct.Eval Direct.Val} {body' : Lasting.Eval Lasting.Val}
    (hw : World r.tree r.plans X)
    (h : ∀ n, Agree
      (Called r ⟨X.homes, { X.direct with depth := n }, { X.lasting with depth := n }⟩)
      (fun _ _ _ _ => False) (body { X.direct with depth := n })
      (body' { X.lasting with depth := n })) :
    Agree (Called r X) (fun _ _ _ _ => False) (Direct.counted body X.direct)
      (Lasting.counted body' X.lasting) := by
  unfold Direct.counted Lasting.counted
  dsimp only
  rw [hw.depth]
  by_cases hdepth : X.lasting.depth + 1 > maxCallDepth
  · rw [if_pos hdepth, if_pos hdepth]
    exact .failed _ _ _ rfl
  · rw [if_neg hdepth, if_neg hdepth]
    refine (h (X.lasting.depth + 1)).atEnd (fun d => { d with depth := d.depth - 1 })
      (fun s => { s with depth := s.depth - 1 }) (fun _ _ _ _ hcalled => ?_)
      fun _ _ _ _ => False.elim
    have hleaves := hcalled.leaves.since (X := X) rfl rfl rfl
    exact ⟨hleaves.congr rfl rfl rfl rfl (congrArg (· - 1)), hcalled.direct, hcalled.lasting,
      hcalled.locals⟩

/-- Calls of values that are the same end alike, however much fuel there is. -/
theorem callsAgree (hr : r.Sound holds) (htests : ∀ v, r.tree.Tested v → Own r v)
    (fuel : Nat) :
    CallsAgree r (Direct.call r.tree fuel) (Lasting.call r.tree r.plans fuel) := by
  induction fuel with
  | zero => exact fun X _ _ _ _ _ _ _ => .outOfFuel X.direct X.lasting
  | succ fuel ih =>
    intro X x y xs ys hw hxy hargs
    have halong : Alongside holds r ⟨r.tree, Direct.call r.tree fuel, fuel⟩
        ⟨r.tree, r.plans, Lasting.call r.tree r.plans fuel, fuel⟩ :=
      ⟨hr, htests, rfl, rfl, rfl, rfl, ih⟩
    refine agree_counted hw fun n => ?_
    exact agree_apply (X := ⟨X.homes, { X.direct with depth := n }, { X.lasting with depth := n }⟩)
      halong (hw.congr rfl rfl rfl rfl rfl) hxy hargs

/-- Two evaluations of a tree with as much fuel agree. -/
theorem alongside (hr : r.Sound holds) (htests : ∀ v, r.tree.Tested v → Own r v)
    (fuel : Nat) :
    Alongside holds r (Direct.context r.tree fuel) (Lasting.context r.tree r.plans fuel) :=
  ⟨hr, htests, rfl, rfl, rfl, rfl, callsAgree hr htests fuel⟩

end ClosureEnv.Run.Cells
