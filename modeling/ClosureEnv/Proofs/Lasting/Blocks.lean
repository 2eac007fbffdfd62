import ClosureEnv.Proofs.Lasting.Entry

/-!
# Blocks

What is entered in a block is out of sight once the block is left, on both sides (`agree_block`);
the same goes for the body of a function or a closure, which begins with its parameters
(`agree_body`).
-/

namespace ClosureEnv.Run.Lasting

open Lowered (Scheme Inside)

variable {holds : VarId → ClosureId → Prop} {r : Scheme} {cx : Inside} {scope i : ScopeId}
  {vis : VarId → Prop} {src : ClosureId → Prop} {m₀ m : Machine} {s₀ s : Store} {c : Run.Context}

/-! ## Leaving -/

/-- Names leave a frame. -/
theorem foldl_leave (names : List String) (m : Machine) : names.foldl Machine.leave m =
    { m with frame.envs := names.foldl (fun envs n => envs.erase n) m.frame.envs } := by
  induction names generalizing m with
  | nil => rfl
  | cons n names ih =>
    rw [List.foldl_cons, ih]
    rfl

/-- Other names stay. -/
theorem find?_foldl_erase {names : List String} {n : String} (hn : n ∉ names)
    (envs : SortedMap String Addr) :
    (names.foldl (fun envs n => SortedMap.erase n envs) envs).find? n = envs.find? n := by
  induction names generalizing envs with
  | nil => rfl
  | cons k names ih =>
    rw [List.mem_cons, not_or] at hn
    rw [List.foldl_cons, ih hn.2, SortedMap.find?_erase_of_ne hn.1]

/-- Statements, one after the other. -/
theorem stmts_append (xs ys : List Lowered.Stmt) :
    c.stmts (xs ++ ys) = (do c.stmts xs; c.stmts ys) := by
  induction xs with
  | nil =>
    rw [List.nil_append, Run.Context.stmts]
    rfl
  | cons x xs ih => rw [List.cons_append, Run.Context.stmts, Run.Context.stmts, ih, bind_assoc]

/-- A block with an entry in front. -/
theorem block_withEntry (entry : Option Lowered.Stmt) (ss : List Lowered.Stmt)
    (tail : Option Lowered.Expr) :
    Scheme.withEntry entry (.mk ss tail) = .mk (entry.toList ++ ss) tail := by
  cases entry <;> rfl

/-- A machine that has run a block: what was entered there has left the frame. -/
def leaveTo (m₁ m : Machine) : Machine :=
  let m₂ := m.frame.entered.foldl Machine.leave m
  { m₂ with frame.entered := m₁.frame.entered }

/-- A block that begins with some statements. -/
theorem inBlock_run {body : Run.Eval Run.Val} {ss : List Lowered.Stmt} {m' : Machine}
    (h : c.stmts ss { m with frame.entered := [] } = (.ok (), m')) :
    Run.inBlock (do c.stmts ss; body) m = ((body m').1, leaveTo m (body m').2) := by
  unfold Run.inBlock
  dsimp only
  rw [Exec.bind_of_ok h]
  rfl

/-- Leaving a block changes nothing but the frame. -/
theorem World.leave (h : World holds r m s) (m₁ : Machine) (σ : Sight) :
    World holds r (leaveTo m₁ m) { s with sight := σ } := by
  unfold leaveTo
  rw [foldl_leave]
  exact h.congr rfl rfl rfl rfl rfl rfl h.depth

/-- What was in sight around a block is found once it is left. -/
theorem Framed.leave (hr : r.Sound holds) (hsite : InBody r cx scope)
    (hi : parentIn? r.tree.scopes i = some scope)
    (h : Framed r cx (AroundEq r.tree.scopes · i) m s) {σ : Sight}
    (hσ : SameSight r.tree r.plans scope s.sight σ)
    (hnames : ∀ n ∈ m.frame.entered, ∃ p, r.plans.From p i ∧ n = Name.envLocal p) (m₁ : Machine) :
    Framed r cx (AroundEq r.tree.scopes · scope) (leaveTo m₁ m) { s with sight := σ } := by
  have hp := hr.bound.preorder
  have hin (o : ScopeId) (ho : AroundEq r.tree.scopes o scope) : AroundEq r.tree.scopes o i :=
    .inr (around_of_parent hp hi ho)
  unfold leaveTo
  rw [foldl_leave]
  constructor
  · intro p o hpo ho
    obtain ⟨a, j, ha, hj, hjp, hsame⟩ := h.covers p o hpo (hin o ho)
    exact ⟨a, j, (hσ p o hpo ho).trans ha, hj, hjp, (hσ.mono hp ho).symm.trans hsame⟩
  · exact h.locals
  · intro p o hpo ho hco
    dsimp only
    rw [find?_foldl_erase, h.entered p o hpo (hin o ho) hco, hσ p o hpo ho]
    -- The names that are erased are those of environments from inside.
    intro hmem
    obtain ⟨q, hq, heq⟩ := hnames _ hmem
    cases Name.envLocal_inj heq
    exact Around.irrefl hp (hpo.unique hq ▸ around_of_parent hp hi ho)
  · intro d hd
    obtain ⟨a, ha, hm⟩ := h.param d hd
    -- The parameter is an environment from around the whole body.
    obtain ⟨o, hdo, hob, -⟩ := hsite.param_from hr hd
    have hos : AroundEq r.tree.scopes o scope := .inr (hob.trans_eq hp hsite.body.aroundEq)
    exact ⟨a, (hσ d o hdo hos).trans ha, hm⟩
  · intro p o a hpo ho hheap hnone ha
    have hos : AroundEq r.tree.scopes o scope := .inr (ho.trans_eq hp hsite.body.aroundEq)
    exact h.outer p o a hpo ho hheap hnone ((hσ p o hpo hos).symm.trans ha)

/-! ## Blocks and bodies -/

/-- A place in a block. -/
theorem Site.block (hr : r.Sound holds) (hsite : Site r cx scope vis) {x : Scope}
    (hx : r.tree.scopes[i]? = some x) (hpar : x.parent = some scope) (hk : x.kind ≠ .closure) :
    Site r cx i vis := by
  refine ⟨⟨hsite.inBody.body.of_parent hr.bound.preorder hx hpar ?_, hsite.inBody.param⟩,
    hsite.reach.block hr.bound hx hpar hk⟩
  rw [← Bool.not_eq_true, hr.bound.isBody_of_parent hx hpar, ← hr.bound.closure_iff i x hx]
  exact hk

variable (hr : r.Sound holds) (hu : Scheme.UnitOf r c.unit)

include hr hu

/-- A block that opens a scope. What it ends in may leave it if what is made there escapes. -/
theorem agree_block (hsite : Site r cx scope vis) (h : Point holds r cx scope vis m₀ s₀ m s)
    {x : Scope} (hx : r.tree.scopes[i]? = some x) (hpar : x.parent = some scope)
    {entry : Option Lowered.Stmt} (hentry : r.entry? cx i [] = .ok entry)
    {body : Run.Eval Run.Val} {body' : Eval Val}
    (hbody : ∀ m₁ s₁, Point holds r cx i vis m₁ s₁ m₁ s₁ →
      Agree (Ends holds r cx i vis src m₁ s₁) (Returns holds r s₁) (body m₁) (body' s₁))
    (hk : x.kind ≠ .closure) :
    Agree (fun y m z s => Point holds r cx scope vis m₀ s₀ m s ∧ ((∀ c k, src c →
        r.tree.closures[c]? = some k → AroundEq r.tree.scopes i k.declaredIn → r.tree.Escaping c) →
        Ends holds r cx scope vis src m₀ s₀ y m z s))
      (Returns holds r s₀) (Run.inBlock (do c.stmts entry.toList; body) m)
      (inBlock r.plans (some i) [] body' s) := by
  have hp := hr.bound.preorder
  have hi := (parentIn?_of_scope hx).trans hpar
  have hscope : Around r.tree.scopes scope i := around_parent hp hi
  have hin := hsite.block hr hx hpar hk
  have hgrows := h.grows.trans (grows_enter s r.plans i [])
  have hsight : SameSight r.tree r.plans scope s.sight (s.enter r.plans i []).sight :=
    sameSight_enter hr hscope
  have hw : World holds r { m with frame.entered := [] } s :=
    h.world.congr rfl rfl rfl rfl rfl rfl h.world.depth
  have hf : Framed r cx (Around r.tree.scopes · i) { m with frame.entered := [] } s :=
    ⟨h.framed.covers.imp fun o ho => aroundEq_parent hp hi ho, h.framed.locals,
      fun p o hpo ho => h.framed.entered p o hpo (aroundEq_parent hp hi ho), h.framed.param,
      h.framed.outer⟩
  obtain ⟨m', hrun, hworld, hframed, names, hentered, hnames⟩ :=
    enter_run hr hu hin.inBody hw hf (fun v hv => (by cases hv)) hentry
  rw [List.append_nil] at hentered
  have hsees : Sees holds r vis (s.enter r.plans i []) :=
    h.sees.congr hr hsite.reach hsight (grows_enter s r.plans i []) (locals_enter s r.plans i [])
  rw [inBlock_run hrun]
  refine (hbody m' _ (.start hworld hframed hsees)).atEnd (leaveTo m)
    (fun s₂ => { s₂ with sight := s.sight }) (fun y m₂ z s₂ hends => ?_) fun y m₂ z s₂ hret => ?_
  · -- Behind the block the sight is that from before it, which is the same as far as the scope
    -- sees.
    have hback : SameSight r.tree r.plans scope s₂.sight s.sight :=
      hends.point.sight ▸ hsight.symm
    have hleft : Framed r cx (AroundEq r.tree.scopes · scope) (leaveTo m m₂)
        { s₂ with sight := s.sight } := by
      refine hends.point.framed.leave hr hsite.inBody hi hback ?_ m
      rw [hends.point.entered, hentered]
      exact hnames
    have hpoint : Point holds r cx scope vis m₀ s₀ (leaveTo m m₂) { s₂ with sight := s.sight } :=
      ⟨hends.point.world.leave m s.sight, hleft,
        hends.point.sees.congr hr hsite.reach hback (.refl _) rfl, h.entered, h.sight,
        hgrows.trans hends.point.grows⟩
    refine ⟨hpoint, fun hleave => ⟨hpoint, hends.same, hends.good.imp fun held hkept => ?_⟩⟩
    exact hkept.leave hp hi hback.symm hleave
  · exact ⟨hret.world.leave m s.sight, hgrows.trans hret.grows, hret.same, hret.free⟩

/-- The body of a function or a closure, which begins with its parameters. -/
theorem agree_body {params : List VarId} (hb : InBody r cx i) (hw : World holds r m s)
    (hf : Framed r cx (Around r.tree.scopes · i) m s)
    (hparams : ∀ v ∈ params, ∃ x y, r.tree.vars[v]? = some x ∧ s.locals.find? v = some y ∧
      Free r.tree r.plans s.heap y)
    (hsees : Sees holds r vis (s.enter r.plans i params)) {entry : Option Lowered.Stmt}
    (hentry : r.entry? cx i params = .ok entry) {body : Run.Eval Run.Val} {body' : Eval Val}
    (hbody : ∀ m₁ s₁, Point holds r cx i vis m₁ s₁ m₁ s₁ →
      Agree (Returns holds r s₁) (Returns holds r s₁) (body m₁) (body' s₁)) :
    Agree (Returns holds r s) (Returns holds r s) (Run.inBlock (do c.stmts entry.toList; body) m)
      (inBlock r.plans (some i) params body' s) := by
  have hgrows := grows_enter s r.plans i params
  have hw' : World holds r { m with frame.entered := [] } s :=
    hw.congr rfl rfl rfl rfl rfl rfl hw.depth
  have hf' : Framed r cx (Around r.tree.scopes · i) { m with frame.entered := [] } s :=
    ⟨hf.covers, hf.locals, hf.entered, hf.param, hf.outer⟩
  obtain ⟨m', hrun, hworld, hframed, -⟩ := enter_run hr hu hb hw' hf' hparams hentry
  rw [inBlock_run hrun]
  have hleave {y : Run.Val} {m₂ : Machine} {z : Val} {s₂ : Store}
      (hret : Returns holds r (s.enter r.plans i params) y m₂ z s₂) :
      Returns holds r s y (leaveTo m m₂) z { s₂ with sight := s.sight } :=
    ⟨hret.world.leave m s.sight, hgrows.trans hret.grows, hret.same, hret.free⟩
  exact (hbody m' _ (.start hworld hframed hsees)).atEnd (leaveTo m)
    (fun s₂ => { s₂ with sight := s.sight }) (fun _ _ _ _ => hleave) fun _ _ _ _ => hleave

end ClosureEnv.Run.Lasting
