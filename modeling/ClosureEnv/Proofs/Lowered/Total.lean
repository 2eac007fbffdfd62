import ClosureEnv.Proofs.Lowered.Refs

/-!
# Bodies can be lowered

When the environments of a tree have been made, lowering its bodies does not fail
(`Prepared.exists_unit`): what code mentions can be seen from where it stands, and whatever holds it
can be referred to from there. The induction goes along bound code and asks at each step for the
next vantage point.
-/

namespace ClosureEnv

open Lowered (Scheme Inside)
open Lowered.Scheme (directOf env_eq_ok)

variable {t : ScopeTree} {holds : VarId → ClosureId → Prop} {options : LowerOptions}
  {baseline : Option Baseline} {a : Captures} {ps : PlanTable} {s : Synthesis}
  {xs : List Synthesis.Settlement} {cx : Inside} {param : Option String} {scope i : ScopeId}
  {vis : VarId → Prop}

/-- The name of a variable that exists. -/
theorem exists_varName {v : VarId} {x : Variable} (hx : t.vars[v]? = some x) :
    Scheme.varName ⟨t, ps, s⟩ v = .ok x.name := by
  unfold Scheme.varName
  rw [ScopeTree.var_eq_ok.mpr hx]
  rfl

/-- Parameters that exist can be lowered. -/
theorem exists_params (ps : PlanTable) (s : Synthesis) {params binds : List VarId}
    (h : Bound.ParamsOf t scope params binds) :
    ∃ qs, Scheme.params ⟨t, ps, s⟩ params = .ok qs := by
  refine Lower.mapM_exists fun v hv => ?_
  obtain ⟨x, hx, -⟩ := h.scope v hv
  exact ⟨⟨v, x.name⟩, by rw [exists_varName hx]; rfl⟩

section

variable (h : t.WellBound holds) (hs : Prepared t options baseline a ps s xs)

include h hs

/-- An environment that is handed on can be referred to. -/
theorem CodeAt.exists_envRef (hcode : CodeAt t ps s cx param scope) {p : PlanId} {o : ScopeId}
    (hp : PlanTable.Handed t ps p o scope) : ∃ ref, Scheme.envRef ⟨t, ps, s⟩ cx p = .ok ref := by
  obtain ⟨x, hx, -⟩ := hp.origin
  obtain ⟨e, he⟩ := hs.exists_env hx
  -- where it leads does not matter here, so what is entered is taken to be just this one
  let w : Lowered.Setting := ⟨t, ps, s.envs.toList, [], param⟩
  have henvs : w.envs = s.envs.toList := rfl
  have hheads : AroundEq t.scopes cx.scope o → ∀ f, s.envs[p]? = some f →
      (Name.envLocal p, f.name) ∈ [(Name.envLocal p, e.name)] := by
    intro _ f hf
    cases he.symm.trans hf
    exact List.mem_cons_self
  obtain ⟨ref, -, href, -⟩ := hs.exists_envRef h hcode henvs rfl hp hheads
  exact ⟨ref, href⟩

/-- A closure that is declared in a scope can be made there. -/
theorem CodeAt.exists_operand (hcode : CodeAt t ps s cx param scope) {c : ClosureId} {k : Closure}
    (hk : t.closures[c]? = some k) (hd : k.declaredIn = scope) {b : ClosureBinding}
    (hb : ps.bindings.find? c = some b) : ∃ x, Scheme.operand ⟨t, ps, s⟩ cx b = .ok x := by
  rcases hs.plans.binding c b hb with ⟨d, rfl, -⟩ | ⟨-, p, x, hx, -, rfl⟩
  · obtain ⟨o, hhanded⟩ := hs.plans.handed_of_direct h hk hb
    obtain ⟨ref, href⟩ := hcode.exists_envRef h hs (hd ▸ hhanded)
    exact ⟨.ref ref, by unfold Scheme.operand; dsimp only; rw [href]; rfl⟩
  · obtain ⟨e, he⟩ := hs.exists_env hx
    unfold Scheme.operand
    cases x.isSingleton with
    | true =>
      rw [if_pos rfl]
      dsimp only
      rw [env_eq_ok.mpr he]
      exact ⟨_, rfl⟩
    | false =>
      rw [if_neg Bool.false_ne_true]
      dsimp only
      rw [env_eq_ok.mpr he]
      exact ⟨_, rfl⟩

end

/-! ## Variables and entries -/

section

variable (h : t.WellBound holds) (hs : Prepared t options baseline a ps s xs) (hm : s.Sound t ps)

include h hs hm

/-- The slot of a visible variable can be referred to. -/
theorem Vantage.exists_place (hv : Vantage t ps s cx param scope vis) {v : VarId} (hvis : vis v) :
    ∃ o, Scheme.place? ⟨t, ps, s⟩ cx v = .ok o := by
  unfold Scheme.place?
  cases hp : ps.varPlan.find? v with
  | none => exact ⟨none, rfl⟩
  | some p =>
    obtain ⟨-, o, -, hhanded, -⟩ := hs.plans.handed_of_varPlan h hv.reach hvis hp
    obtain ⟨x, hx, hslot⟩ := hs.plans.linking.placed.var_plan v p hp
    obtain ⟨e, he⟩ := hs.exists_env hx
    obtain ⟨f, hf⟩ := (hm.env p x e hx he).fields.exists_fieldFor hslot
    obtain ⟨ref, href⟩ := hv.code.exists_envRef h hs hhanded
    refine ⟨some ⟨ref, f.name⟩, ?_⟩
    dsimp only
    rw [env_eq_ok.mpr he, Lower.ok_bind, hf, Lower.orInconsistent_eq_ok.mpr rfl, Lower.ok_bind,
      href]
    rfl

/-- A visible variable can be read. -/
theorem Vantage.exists_read (hv : Vantage t ps s cx param scope vis) {v : VarId} (hvis : vis v) :
    ∃ x, Scheme.read ⟨t, ps, s⟩ cx v = .ok x := by
  obtain ⟨o, ho⟩ := hv.exists_place h hs hm hvis
  obtain ⟨x, hx, -⟩ := hv.reach v hvis
  unfold Scheme.read
  rw [ho, Lower.ok_bind]
  cases o with
  | some place => exact ⟨_, rfl⟩
  | none =>
    unfold Scheme.localVar
    exact ⟨.var v x.name, by dsimp only; rw [exists_varName hx]; rfl⟩

/-- A visible variable can be written. -/
theorem Vantage.exists_write (hv : Vantage t ps s cx param scope vis) {v : VarId} (hvis : vis v)
    (plain : VarId → String → Lowered.Expr → Lowered.Stmt) (value : Lowered.Expr) :
    ∃ x, Scheme.write ⟨t, ps, s⟩ cx v plain value = .ok x := by
  obtain ⟨o, ho⟩ := hv.exists_place h hs hm hvis
  obtain ⟨x, hx, -⟩ := hv.reach v hvis
  unfold Scheme.write
  rw [ho, Lower.ok_bind]
  cases o with
  | some place => exact ⟨_, rfl⟩
  | none => exact ⟨plain v x.name value, by dsimp only; rw [exists_varName hx]; rfl⟩

/-- The environment of a scope can be entered. -/
theorem CodeAt.exists_entry (hcode : CodeAt t ps s cx param scope) (params : List VarId) :
    ∃ x, Scheme.entry? ⟨t, ps, s⟩ cx scope params = .ok x := by
  unfold Scheme.entry?
  cases hp : ps.scopePlan.find? scope with
  | none => exact ⟨none, rfl⟩
  | some p =>
    obtain ⟨o, ⟨x, hx, hxo⟩, -⟩ := hs.plans.linking.placed.scope_plan scope p hp
    dsimp only
    rw [PlanTable.plan_eq_ok.mpr hx, Lower.ok_bind]
    by_cases ho : o = scope
    · subst ho
      obtain ⟨e, he⟩ := hs.exists_env hx
      -- the fields are for variables of the plan, and those exist
      obtain ⟨args, hargs⟩ : ∃ args, (e.fields.filterMap EnvField.var).mapM
          (Scheme.entryArg ⟨t, ps, s⟩ params) = .ok args := by
        refine Lower.mapM_exists fun v hv => ?_
        obtain ⟨f, hf, hfv⟩ := List.mem_filterMap.mp hv
        have hslot := (hm.env p x e hx he).fields.mem_slots hf hfv
        obtain ⟨-, -, y, -, hy, -⟩ := hs.plans.linking.placed.slot p x v hx hslot
        unfold Scheme.entryArg Scheme.localVar
        split
        · exact ⟨.var v y.name, by rw [exists_varName hy]; rfl⟩
        · exact ⟨.uninit, rfl⟩
      obtain ⟨parent, hparent⟩ : ∃ parent,
          x.parent.mapM (Scheme.envRef ⟨t, ps, s⟩ cx) = .ok parent := by
        cases hq : x.parent with
        | none => exact ⟨none, rfl⟩
        | some q =>
          obtain ⟨_, hhanded, -⟩ := hs.plans.handed_of_parent ⟨x, hx, hxo⟩
            (PlanTable.parent?_eq_some.mpr ⟨x, hx, hq⟩)
          obtain ⟨ref, href⟩ := hcode.exists_envRef h hs hhanded
          exact ⟨some ref, by rw [Option.mapM_some, href]; rfl⟩
      rw [if_pos (by rw [hxo, beq_self_eq_true]), env_eq_ok.mpr he, Lower.ok_bind, hargs,
        Lower.ok_bind, hparent]
      exact ⟨_, rfl⟩
    · rw [if_neg (by simpa [hxo] using ho)]
      exact ⟨none, rfl⟩

end

/-! ## Code -/

mutual

/-- Expressions can be lowered. -/
theorem Prepared.exists_expr (hs : Prepared t options baseline a ps s xs) (h : t.WellBound holds)
    (hm : s.Sound t ps) : ∀ (e : Bound.Expr) {scope : ScopeId} {vis : VarId → Prop},
    Vantage t ps s cx param scope vis → e.Scoped t holds scope vis →
    ∃ x, Scheme.expr ⟨t, ps, s⟩ cx e = .ok x
  | .lit value, scope, vis, hv, he => ⟨.lit value, by rw [Scheme.expr]; rfl⟩
  | .var v, scope, vis, hv, he => by
    rw [Scheme.expr]
    exact hv.exists_read h hs hm he
  | .global name, scope, vis, hv, he => ⟨.global name, by rw [Scheme.expr]; rfl⟩
  | .fn name, scope, vis, hv, he => ⟨.fn name, by rw [Scheme.expr]; rfl⟩
  | .unary op operand, scope, vis, hv, he => by
    obtain ⟨x, hx⟩ := hs.exists_expr h hm operand hv he
    exact ⟨.unary op x, by rw [Scheme.expr, hx]; rfl⟩
  | .binary op lhs rhs, scope, vis, hv, he => by
    obtain ⟨l, hl⟩ := hs.exists_expr h hm lhs hv he.1
    obtain ⟨r, hr⟩ := hs.exists_expr h hm rhs hv he.2
    exact ⟨.binary op l r, by rw [Scheme.expr, hl, Lower.ok_bind, hr]; rfl⟩
  | .call callee args, scope, vis, hv, he => by
    obtain ⟨f, hf⟩ := hs.exists_expr h hm callee hv he.1
    obtain ⟨ys, hys⟩ := hs.exists_exprs h hm args hv he.2.1
    exact ⟨.call f ys, by rw [Scheme.expr, hys, Lower.ok_bind, hf]; rfl⟩
  | .block body, scope, vis, hv, he => by
    obtain ⟨hbody, i, hi, hopens, -⟩ := he
    obtain ⟨x, hx⟩ := hs.exists_block h hm body hv hi hopens (.inl rfl) hbody
    exact ⟨.block x, by rw [Scheme.expr, hx]; rfl⟩
  | .cond test yes no, scope, vis, hv, he => by
    obtain ⟨htest, hyes, ⟨i, hi, hopens, -⟩, hno⟩ := he
    obtain ⟨c, hc⟩ := hs.exists_expr h hm test hv htest
    obtain ⟨y, hy⟩ := hs.exists_block h hm yes hv hi hopens (.inl rfl) hyes
    obtain ⟨n, hn⟩ := hs.exists_option h hm no hv hno
    exact ⟨.cond c y n, by rw [Scheme.expr, hc, Lower.ok_bind, hy, Lower.ok_bind, hn]; rfl⟩
  | .loop test body, scope, vis, hv, he => by
    obtain ⟨htest, hbody, i, hi, hopens⟩ := he
    obtain ⟨c, hc⟩ := hs.exists_expr h hm test hv htest
    obtain ⟨y, hy⟩ := hs.exists_block h hm body hv hi hopens (.inr rfl) hbody
    exact ⟨.loop c y, by rw [Scheme.expr, hc, Lower.ok_bind, hy]; rfl⟩
  | .closure c, scope, vis, hv, he => by
    obtain ⟨k, hk, hd, -⟩ := he
    obtain ⟨b, hb⟩ := hs.plans.bound c (Array.getElem?_eq_some_iff.mp hk).1
    obtain ⟨x, hx⟩ := hv.code.exists_operand h hs hk hd hb
    have hname : Scheme.lambdaName ⟨t, ps, s⟩ c = .ok (Synthesis.lambdaOf t k) :=
      Lower.orInconsistent_eq_ok.mpr (hm.lambdas c k hk)
    have hbind : Scheme.binding ⟨t, ps, s⟩ c = .ok b := Lower.orInconsistent_eq_ok.mpr hb
    exact ⟨.makeClosure _ x, by
      rw [Scheme.expr, hname, Lower.ok_bind, hbind, Lower.ok_bind, hx]; rfl⟩

/-- Optional expressions can be lowered. -/
theorem Prepared.exists_option (hs : Prepared t options baseline a ps s xs) (h : t.WellBound holds)
    (hm : s.Sound t ps) : ∀ (e : Option Bound.Expr) {scope : ScopeId} {vis : VarId → Prop},
    Vantage t ps s cx param scope vis → Bound.optionScoped t holds scope vis e →
    ∃ x, Scheme.option ⟨t, ps, s⟩ cx e = .ok x
  | none, scope, vis, hv, he => ⟨none, by rw [Scheme.option]; rfl⟩
  | some e, scope, vis, hv, he => by
    obtain ⟨x, hx⟩ := hs.exists_expr h hm e hv he
    exact ⟨some x, by rw [Scheme.option, hx]; rfl⟩

/-- Arguments can be lowered. -/
theorem Prepared.exists_exprs (hs : Prepared t options baseline a ps s xs) (h : t.WellBound holds)
    (hm : s.Sound t ps) : ∀ (es : List Bound.Expr) {scope : ScopeId} {vis : VarId → Prop},
    Vantage t ps s cx param scope vis → Bound.exprsScoped t holds scope vis es →
    ∃ ys, Scheme.exprs ⟨t, ps, s⟩ cx es = .ok ys
  | [], scope, vis, hv, he => ⟨[], by rw [Scheme.exprs]; rfl⟩
  | e :: es, scope, vis, hv, he => by
    obtain ⟨x, hx⟩ := hs.exists_expr h hm e hv he.1
    obtain ⟨ys, hys⟩ := hs.exists_exprs h hm es hv he.2
    exact ⟨x :: ys, by rw [Scheme.exprs, hx, Lower.ok_bind, hys]; rfl⟩

/-- Blocks that open a scope can be lowered. -/
theorem Prepared.exists_block (hs : Prepared t options baseline a ps s xs) (h : t.WellBound holds)
    (hm : s.Sound t ps) : ∀ (b : Bound.Block) {scope i : ScopeId} {vis : VarId → Prop}
    {kind : ScopeKind}, Vantage t ps s cx param scope vis → b.scope = some i →
    Bound.Opens t scope i kind → kind = .block ∨ kind = .loop → b.Scoped t holds scope vis →
    ∃ x, Scheme.block ⟨t, ps, s⟩ cx b = .ok x
  | .mk o ss tail, scope, i, vis, kind, hv, hi, hopens, hkind, hb => by
    obtain rfl : o = some i := hi
    have hwithin := hv.enter h hopens hkind
    obtain ⟨entry, hentry⟩ := hwithin.code.exists_entry h hs hm []
    obtain ⟨ys, hys⟩ := hs.exists_stmts h hm ss hwithin hb.1
    obtain ⟨x, hx⟩ := hs.exists_option h hm tail (hwithin.after h hb.1) hb.2
    refine ⟨Scheme.withEntry entry (.mk ys x), ?_⟩
    rw [Scheme.block]
    dsimp only
    rw [hentry, Lower.ok_bind, hys, Lower.ok_bind, hx]
    rfl

/-- Statements can be lowered. -/
theorem Prepared.exists_stmt (hs : Prepared t options baseline a ps s xs) (h : t.WellBound holds)
    (hm : s.Sound t ps) : ∀ (e : Bound.Stmt) {scope : ScopeId} {vis : VarId → Prop},
    Vantage t ps s cx param scope vis → e.Scoped t holds scope vis →
    ∃ x, Scheme.stmt ⟨t, ps, s⟩ cx e = .ok x
  | .bind v value, scope, vis, hv, he => by
    obtain ⟨y, hy⟩ := hs.exists_expr h hm value hv he.1
    rw [Scheme.stmt, hy, Lower.ok_bind]
    exact (hv.declare h he).exists_write h hs hm (.inr List.mem_cons_self) _ y
  | .assign (.var v) value, scope, vis, hv, he => by
    obtain ⟨y, hy⟩ := hs.exists_expr h hm value hv he.1
    rw [Scheme.stmt, hy, Lower.ok_bind]
    exact hv.exists_write h hs hm he.2.1 _ y
  | .assign (.global name) value, scope, vis, hv, he => by
    obtain ⟨y, hy⟩ := hs.exists_expr h hm value hv he.1
    exact ⟨.assignGlobal name y, by rw [Scheme.stmt, hy]; rfl⟩
  | .expr value, scope, vis, hv, he => by
    obtain ⟨y, hy⟩ := hs.exists_expr h hm value hv he
    exact ⟨.expr y, by rw [Scheme.stmt, hy]; rfl⟩
  | .ret value, scope, vis, hv, he => by
    obtain ⟨y, hy⟩ := hs.exists_option h hm value hv he.1
    exact ⟨.ret y, by rw [Scheme.stmt, hy]; rfl⟩

/-- Sequences of statements can be lowered. -/
theorem Prepared.exists_stmts (hs : Prepared t options baseline a ps s xs) (h : t.WellBound holds)
    (hm : s.Sound t ps) : ∀ (ss : List Bound.Stmt) {scope : ScopeId} {vis : VarId → Prop},
    Vantage t ps s cx param scope vis → Bound.stmtsScoped t holds scope vis ss →
    ∃ ys, Scheme.stmtList ⟨t, ps, s⟩ cx ss = .ok ys
  | [], scope, vis, hv, he => ⟨[], by rw [Scheme.stmtList]; rfl⟩
  | e :: es, scope, vis, hv, he => by
    obtain ⟨x, hx⟩ := hs.exists_stmt h hm e hv he.1
    obtain ⟨ys, hys⟩ := hs.exists_stmts h hm es (hv.declare h he.1) he.2
    exact ⟨x :: ys, by rw [Scheme.stmtList, hx, Lower.ok_bind, hys]; rfl⟩

end

/-! ## The whole unit -/

namespace Prepared

variable (hs : Prepared t options baseline a ps s xs) (h : t.WellBound holds) (hm : s.Sound t ps)

include hs h hm

/-- Blocks without a scope of their own can be lowered. -/
theorem exists_plain {b : Bound.Block} (hv : Vantage t ps s cx param scope vis)
    (hscope : b.scope = none) (hb : b.Scoped t holds scope vis) :
    ∃ x, Scheme.block ⟨t, ps, s⟩ cx b = .ok x := by
  obtain ⟨o, ss, tail⟩ := b
  obtain rfl : o = none := hscope
  obtain ⟨ys, hys⟩ := hs.exists_stmts h hm ss hv hb.1
  obtain ⟨x, hx⟩ := hs.exists_option h hm tail (hv.after h hb.1) hb.2
  refine ⟨.mk ys x, ?_⟩
  rw [Scheme.block]
  dsimp only
  rw [pure_bind, hys, Lower.ok_bind, hx]
  rfl

/-- The bodies of closures can be lowered. -/
theorem exists_body {e : Bound.Expr} (hv : Vantage t ps s cx param scope vis)
    (he : Bound.BodyScoped t holds scope vis e) :
    ∃ x, Scheme.closureBody ⟨t, ps, s⟩ cx e = .ok x := by
  unfold Bound.BodyScoped at he
  split at he
  · exact hs.exists_plain h hm hv rfl he
  · next hne =>
    obtain ⟨y, hy⟩ := hs.exists_expr h hm e hv he
    exact ⟨.mk [] (some y), by rw [Scheme.closureBody_eq hne, hy]; rfl⟩

/-- Functions can be lowered. -/
theorem exists_function {f : Function} (hf : f ∈ t.fns) (hsyn : f.isSynthetic = false) :
    ∃ g, Scheme.function ⟨t, ps, s⟩ f = .ok g := by
  obtain ⟨hscoped, hscope, -, hparams⟩ := h.fn_body f hf hsyn
  have hv : Vantage t ps s ⟨f.scope, none⟩ none f.scope (· ∈ f.params) := .function h hf hsyn
  obtain ⟨body, hbody⟩ := hs.exists_plain h hm hv hscope hscoped
  obtain ⟨entry, hentry⟩ := hv.code.exists_entry h hs hm f.params
  obtain ⟨qs, hqs⟩ := exists_params ps s hparams
  refine ⟨⟨f.name, qs, Scheme.withEntry entry body⟩, ?_⟩
  unfold Scheme.function
  dsimp only
  rw [hbody, Lower.ok_bind, hentry, Lower.ok_bind, hqs]
  rfl

/-- The ways to the free variables of a closure can be found. -/
theorem exists_access {c : Nat} {k : Closure} (hk : t.closures[c]? = some k)
    (hcode : CodeAt t ps s cx param k.scope) (name : String) {v : VarId} (hv : v ∈ k.freeVars) :
    ∃ x, Scheme.access ⟨t, ps, s⟩ cx k name v = .ok x := by
  have hneeds := h.needs_of_freeVars hk hv
  obtain ⟨y, hy, -⟩ := h.free_var c k v hk hv
  obtain ⟨p, hp⟩ := hs.plans.linking.placed.covered v ⟨c, hneeds⟩
  obtain ⟨o, ho⟩ := Vantage.exists_place h hs hm ⟨hcode, ScopeTree.Reach.needs h hk⟩ hneeds
  -- the variable has a plan, and so a place
  obtain ⟨place, rfl⟩ : ∃ place, o = some place := by
    cases o with
    | some place => exact ⟨place, rfl⟩
    | none =>
      unfold Scheme.place? at ho
      rw [hp] at ho
      obtain ⟨e, -, ho⟩ := Lower.bind_eq_ok.mp ho
      obtain ⟨f, -, ho⟩ := Lower.bind_eq_ok.mp ho
      obtain ⟨ref, -, ho⟩ := Lower.bind_eq_ok.mp ho
      cases ho
  refine ⟨⟨k.id, name, v, y.name, place⟩, ?_⟩
  unfold Scheme.access
  rw [ho, Lower.ok_bind, Lower.orInconsistent_eq_ok.mpr rfl, Lower.ok_bind, exists_varName hy]
  rfl

/-- Closures can be lowered. -/
theorem exists_lambda {c : Nat} {k : Closure} (hk : t.closures[c]? = some k) :
    ∃ l, Scheme.lambda ⟨t, ps, s⟩ k = .ok l := by
  obtain ⟨b, hb⟩ := hs.plans.bound c (Array.getElem?_eq_some_iff.mp hk).1
  obtain ⟨x, hx⟩ := hs.plans.exists_plan_of_binding hb
  obtain ⟨e, he⟩ := hs.exists_env hx
  obtain ⟨hscoped, -, hparams⟩ := h.closure_body c k hk
  have hv := Vantage.closure h hk hb he
  obtain ⟨body, hbody⟩ := hs.exists_body h hm hv hscoped
  obtain ⟨entry, hentry⟩ := hv.code.exists_entry h hs hm k.params
  obtain ⟨accesses, haccesses⟩ := Lower.mapM_exists fun v hv' =>
    hs.exists_access h hm hk hv.code (Synthesis.lambdaOf t k) (v := v) hv'
  obtain ⟨qs, hqs⟩ := exists_params ps s hparams
  have hbind : Scheme.binding ⟨t, ps, s⟩ k.id = .ok b :=
    Lower.orInconsistent_eq_ok.mpr ((h.closure_id c k hk).symm ▸ hb)
  have hname : Scheme.lambdaName ⟨t, ps, s⟩ k.id = .ok (Synthesis.lambdaOf t k) :=
    Lower.orInconsistent_eq_ok.mpr ((h.closure_id c k hk).symm ▸ hm.lambdas c k hk)
  refine ⟨(⟨Synthesis.lambdaOf t k, k.id, e.name, e.kind, qs, Scheme.withEntry entry body⟩,
    accesses), ?_⟩
  rw [Scheme.lambda_eq hbind, hbody, Lower.ok_bind, hentry, Lower.ok_bind, hname, Lower.ok_bind,
    haccesses, Lower.ok_bind, env_eq_ok.mpr he, Lower.ok_bind, hqs]
  rfl

/-- The initial values of globals can be lowered. -/
theorem exists_globals : ∃ gs, Scheme.globals ⟨t, ps, s⟩ = .ok gs := by
  unfold Scheme.globals
  dsimp only
  cases hf : t.fns.find? Function.isSynthetic with
  | none => exact ⟨[], rfl⟩
  | some f =>
    refine Lower.mapM_exists fun g hg => ?_
    obtain ⟨f', hf', hscoped, -⟩ := h.global_init g (Array.mem_toList_iff.mp hg)
    cases hf.symm.trans hf'
    obtain ⟨x, hx⟩ := hs.exists_expr h hm g.init (Vantage.global h hf) hscoped
    exact ⟨⟨g.name, g.isMut, x⟩, by rw [hx]; rfl⟩

/-- The unit can be lowered. -/
theorem exists_unit : ∃ u, Scheme.unit ⟨t, ps, s⟩ = .ok u := by
  obtain ⟨functions, hfunctions⟩ := Lower.mapM_exists
    (l := t.fns.toList.filter (!·.isSynthetic)) fun f hf => by
      obtain ⟨hmem, hsyn⟩ := List.mem_filter.mp hf
      exact hs.exists_function h hm (Array.mem_toList_iff.mp hmem) (by simpa using hsyn)
  obtain ⟨globals, hglobals⟩ := hs.exists_globals h hm
  obtain ⟨lambdas, hlambdas⟩ := Lower.mapM_exists (l := t.closures.toList) fun k hk => by
    obtain ⟨c, hc⟩ := Array.mem_iff_getElem?.mp (Array.mem_toList_iff.mp hk)
    exact hs.exists_lambda h hm hc
  unfold Scheme.unit
  dsimp only
  rw [hfunctions, Lower.ok_bind, hglobals, Lower.ok_bind, hlambdas]
  exact ⟨_, rfl⟩

end Prepared

end ClosureEnv
