import ClosureEnv.Proofs.Lasting.Cases
import ClosureEnv.Proofs.Lowered.Refs

/-!
# Calls

Bodies are evaluated alike if calls are, which follows from the cases by recursion over the body
(`expr_agrees`). So what a call runs in a frame of its own is run alike (`agree_function`,
`agree_closure`), and by induction on how much fuel there is calls agree (`callsAgree`).
-/

namespace ClosureEnv.Run.Lasting

open Lowered (Scheme Inside)
open Lowered.Scheme (directOf)

variable {holds : VarId → ClosureId → Prop} {r : Scheme} {cx : Inside} {scope i : ScopeId}
  {vis : VarId → Prop} {c : Run.Context} {c' : Context} {m₀ m : Machine} {s₀ s : Store}

/-! ## Bodies -/

mutual

/-- Every expression is evaluated alike. -/
theorem expr_agrees (h : Alongside holds r c c') : ∀ e : Bound.Expr, ExprAgrees holds r cx c c' e
  | .lit l => expr_lit l
  | .var v => expr_var h v
  | .global name => expr_global name
  | .fn name => expr_fn name
  | .unary _ e => expr_unary (expr_agrees h e)
  | .binary _ e f => expr_binary (expr_agrees h e) (expr_agrees h f)
  | .call f es => expr_call h (expr_agrees h f) (exprs_agree h es)
  | .block b => expr_block h (block_agrees h b)
  | .cond e b n => expr_cond h (expr_agrees h e) (block_agrees h b) (option_agrees h n)
  | .loop e b => expr_loop h (expr_agrees h e) (block_agrees h b)
  | .closure k => expr_closure h k

/-- Every optional expression is evaluated alike. -/
theorem option_agrees (h : Alongside holds r c c') :
    ∀ e : Option Bound.Expr, OptionAgrees holds r cx c c' e
  | none => option_none
  | some e => option_some (expr_agrees h e)

/-- All arguments are evaluated alike. -/
theorem exprs_agree (h : Alongside holds r c c') :
    ∀ es : List Bound.Expr, ExprsAgree holds r cx c c' es
  | [] => exprs_nil
  | e :: es => exprs_cons (expr_agrees h e) (exprs_agree h es)

/-- What stands in any block is run alike. -/
theorem block_agrees (h : Alongside holds r c c') : ∀ b : Bound.Block, BlockAgrees holds r cx c c' b
  | .mk _ ss tail => block_mk h (stmts_agree h ss) (option_agrees h tail)

/-- Every statement is run alike. -/
theorem stmt_agrees (h : Alongside holds r c c') : ∀ x : Bound.Stmt, StmtAgrees holds r cx c c' x
  | .bind _ e => stmt_bind h (expr_agrees h e)
  | .assign (.var _) e => stmt_assign_var h (expr_agrees h e)
  | .assign (.global _) e => stmt_assign_global (expr_agrees h e)
  | .expr e => stmt_expr (expr_agrees h e)
  | .ret e => stmt_ret (option_agrees h e)

/-- All statements are run alike. -/
theorem stmts_agree (h : Alongside holds r c c') :
    ∀ ss : List Bound.Stmt, StmtsAgree holds r cx c c' ss
  | [] => stmts_nil
  | x :: xs => stmts_cons h (stmt_agrees h x) (stmts_agree h xs)

end

/-- What is in sight does not matter for a value that has been returned. -/
theorem Returns.sight {x : Run.Val} {y : Val} (h : Returns holds r s₀ x m y s) (σ : Sight) :
    Returns holds r s₀ x m y { s with sight := σ } :=
  ⟨h.world.congr rfl rfl rfl rfl rfl rfl h.world.depth, h.grows, h.same, h.free⟩

section

variable (h : Alongside holds r c c')

include h

/-- A block without a scope of its own is run alike; its value may go anywhere. -/
theorem agree_plain {b : Bound.Block} {x : Lowered.Block} (hsite : Site r cx scope vis)
    (hscope : b.scope = none) (hb : b.Scoped r.tree holds scope vis)
    (hesc : Bound.AllEscape r.tree holds b.sources) (hx : r.block cx b = .ok x)
    (hpoint : Point holds r cx scope vis m₀ s₀ m s) :
    Agree (Returns holds r s₀) (Returns holds r s₀) ((do c.stmts x.stmts; c.option x.tail) m)
      (c'.block b s) := by
  obtain ⟨o, ss, tail⟩ := b
  obtain rfl : o = none := hscope
  rw [Scheme.block] at hx
  obtain ⟨entry, hentry, hx⟩ := Lower.bind_eq_ok.mp hx
  cases hentry
  obtain ⟨xs, hxs, hx⟩ := Lower.bind_eq_ok.mp hx
  obtain ⟨y, hy, hx⟩ := Lower.bind_eq_ok.mp hx
  cases hx
  have hagree := (block_agrees h (.mk none ss tail) hsite hb.1 hb.2 hxs hy hpoint).imp
    (fun _ _ _ _ hends => hends.returns hesc) fun _ _ _ _ => id
  rw [Context.block]
  exact hagree.atEnd id (fun s₂ => { s₂ with sight := s.sight })
    (fun _ _ _ _ hret => hret.sight _) fun _ _ _ _ hret => hret.sight _

/-- The body of a closure is run alike; its value may go anywhere. -/
theorem agree_closureBody {e : Bound.Expr} {x : Lowered.Block} (hsite : Site r cx scope vis)
    (he : Bound.BodyScoped r.tree holds scope vis e)
    (hesc : Bound.AllEscape r.tree holds e.sources) (hx : r.closureBody cx e = .ok x)
    (hpoint : Point holds r cx scope vis m₀ s₀ m s) :
    Agree (Returns holds r s₀) (Returns holds r s₀) ((do c.stmts x.stmts; c.option x.tail) m)
      (c'.expr e s) := by
  unfold Bound.BodyScoped at he
  split at he
  · rw [Context.expr]
    exact agree_plain h hsite rfl he (by simpa [Bound.Expr.sources] using hesc) hx hpoint
  · next hne =>
    rw [Scheme.closureBody_eq hne] at hx
    obtain ⟨y, hy, hx⟩ := Lower.bind_eq_ok.mp hx
    cases hx
    show Agree _ _ ((do c.stmts []; c.option (some y)) m) _
    rw [Run.Context.stmts, pure_bind, Run.Context.option]
    exact (expr_agrees h e hsite he hy hpoint).imp (fun _ _ _ _ hends => hends.returns hesc)
      fun _ _ _ _ => id

end

/-! ## Arguments -/

/-- The parameters of a lowered body get the arguments. -/
theorem bindParams_eq {ps : List Lowered.Param} {params : List VarId}
    (h : ps.map Lowered.Param.var = params) (xs : List Run.Val) :
    bindParams ps xs = params.zip xs := by
  subst h
  unfold bindParams List.zip
  rw [List.zipWith_map_left]

namespace SameArgs

variable {xs : List Run.Val} {ys : List Val} {params : List VarId}

/-- Parameters have values that are alike. -/
theorem rel (h : SameArgs r s xs ys) (params : List VarId) (v : VarId) :
    Option.Rel (Same r) ((SortedMap.ofList (params.zip xs)).find? v)
      ((SortedMap.ofList (params.zip ys)).find? v) := by
  refine SortedMap.rel_foldl_insert ?_ v [] [] .none
  induction h generalizing params with
  | nil => simp
  | cons hxy _ ih =>
    cases params with
    | nil => exact .nil
    | cons w params => exact .cons ⟨rfl, hxy.1⟩ (ih params)

/-- And every parameter has one, which may go anywhere. -/
theorem exists_value (h : SameArgs r s xs ys) (hlen : ys.length = params.length) {v : VarId}
    (hv : v ∈ params) : ∃ y, (SortedMap.ofList (params.zip ys)).find? v = some y ∧
      Free r.tree r.plans s.heap y := by
  have hfree : ∀ y ∈ ys, Free r.tree r.plans s.heap y := fun y hy => by
    obtain ⟨x, -, hxy⟩ := Lower.exists_left_of_forall₂ h hy
    exact hxy.2
  have hmem : ∃ y, (v, y) ∈ params.zip ys := by
    obtain ⟨n, hn, rfl⟩ := List.mem_iff_getElem.mp hv
    exact ⟨ys[n], List.mem_iff_getElem.mpr ⟨n, by simp [hlen, hn], by simp⟩⟩
  obtain ⟨y, hy⟩ := Option.isSome_iff_exists.mp
    (SortedMap.isSome_find?_foldl_insert [] (.inl hmem))
  exact ⟨y, hy, hfree y (List.of_mem_zip (SortedMap.mem_of_find?_ofList hy)).2⟩

end SameArgs

/-! ## Frames -/

/-- A body with a frame of its own. -/
theorem agree_inFrame {frame : Frame} {σ : Sight} {locals : SortedMap VarId Val}
    {body : Run.Eval Run.Val} {body' : Eval Val}
    (h : Agree (Returns holds r s) (Returns holds r s)
      (body { m with frame, callers := m.frame :: m.callers })
      (body' { s with sight := σ, locals })) :
    Agree (Called holds r m s) (fun _ _ _ _ => False)
      (Run.inFrame frame (Exec.returning body) m) (inFrame σ locals body' s) := by
  have hvalue : Agree (Returns holds r s) (fun _ _ _ _ => False) _ _ := h.returning
  refine hvalue.atEnd (fun m₁ => { m₁ with frame := m.frame, callers := m.callers })
    (fun s₁ => { s₁ with sight := s.sight, locals := s.locals }) (fun _ _ _ _ hret => ?_)
    fun _ _ _ _ => False.elim
  exact ⟨⟨hret.world.congr rfl rfl rfl rfl rfl rfl hret.world.depth, hret.grows, hret.same,
    hret.free⟩, rfl, rfl, rfl, rfl⟩

/-! ## The start of a body -/

/-- Two kinds of visible variables. -/
theorem Sees.or {vis' : VarId → Prop} (h : Sees holds r vis s) (h' : Sees holds r vis' s) :
    Sees holds r (fun v => vis v ∨ vis' v) s :=
  ⟨fun v p hv => hv.elim (h.captured v p) (h'.captured v p),
    fun v hv => hv.elim (h.plain v) (h'.plain v)⟩

section

variable (hr : r.Sound holds) {params binds : List VarId}

include hr

/-- Parameters have values once the scope of their body is entered. -/
theorem sees_params (hparams : Bound.ParamsOf r.tree i params binds) {x : Scope}
    (hx : r.tree.scopes[i]? = some x) (hbody : x.kind ≠ .block)
    (hlocals : ∀ v ∈ params, ∃ y, s.locals.find? v = some y ∧ Free r.tree r.plans s.heap y) :
    Sees holds r (· ∈ params) (s.enter r.plans i params) := by
  constructor
  · intro v p hv hvp
    obtain ⟨y, hy, hyi⟩ := hparams.scope v hv
    obtain ⟨o, ho, hclear⟩ := hr.plans.clear_of_varPlan hvp hy
    rw [hyi] at hclear
    -- the scope of a body is no block, so that the parameter is not held further out
    obtain rfl : o = i := hclear.1.resolve_right fun hoi => by
      obtain ⟨⟨sc, hsc, hblock⟩, -⟩ := hclear.2 i hoi (.inl rfl)
      cases hx.symm.trans hsc
      exact hbody hblock
    obtain ⟨z, hz, hzo⟩ := ho
    obtain ⟨z', hz', hvz⟩ := hr.plans.linking.placed.var_plan v p hvp
    cases hz.symm.trans hz'
    obtain ⟨w, hw, -⟩ := hlocals v hv
    rw [enter_of_from hr hz hzo]
    refine ⟨p, s.heap.size, ⟨p, s.sight.insert p s.heap.size, s.given z params⟩, hvp,
      SortedMap.find?_insert_self _ _ _, ?_, ?_⟩
    · dsimp only
      rw [Array.getElem?_push, if_pos rfl]
    · dsimp only
      rw [find?_given, if_pos ⟨hvz, hv⟩, hw]
      rfl
  · -- A parameter that is not captured is a local.
    intro v hv _
    obtain ⟨y, hy, hfree⟩ := hlocals v hv
    rw [locals_enter]
    refine ⟨y, hy, (hfree.mono (grows_enter s r.plans i params)).imp fun held hesc => ?_⟩
    obtain ⟨x, hx, -⟩ := hparams.scope v hv
    exact ⟨x, hx, .inl hesc⟩

/-- What a closure needs has values once its scope is entered. -/
theorem sees_needs {k : Nat} {l : Closure} (hl : r.tree.closures[k]? = some l)
    (hset : ∀ v, r.tree.Needs k v → IsSet r.plans s.heap s.sight v) :
    Sees holds r (r.tree.Needs k) (s.enter r.plans l.scope params) := by
  constructor
  · intro v p hv hvp
    obtain ⟨-, x, -, hx⟩ := hr.bound.exists_of_needs hv
    exact ((hset v hv).mono (grows_enter s r.plans l.scope params)).congr hr hx
      (sameSight_enter hr (hr.bound.around_of_needs hv hl hx))
  · intro v hv hplain
    obtain ⟨p, hp⟩ := hr.plans.linking.placed.covered v ⟨k, hv⟩
    rw [hplain] at hp
    cases hp

end

/-! ## Calls -/

/-- A body is lowered with its entry in front. -/
theorem block_eq (entry : Option Lowered.Stmt) (b : Lowered.Block) :
    c.block (Scheme.withEntry entry b) =
      Run.inBlock (do c.stmts entry.toList; (do c.stmts b.stmts; c.option b.tail)) := by
  obtain ⟨ss, tail⟩ := b
  exact block_run entry ss tail

section

variable (h : Alongside holds r c c')

include h

/-- A body is run alike on arguments that are alike, with some environments in sight around it. -/
theorem agree_call {params binds : List VarId} {d : Option PlanId} (hin : InBody r ⟨i, d⟩ i)
    (hparams : Bound.ParamsOf r.tree i params binds) (hw : World holds r m s) {σ : Sight}
    (hcovers : Covers r.tree r.plans s.heap (Around r.tree.scopes · i) σ) {handle : Option Handle}
    (hparam : ∀ e, d = some e →
      ∃ a, σ.find? e = some a ∧ handle = some (handleOf r.plans e a))
    (halive : Alive r m.frames i σ) {xs : List Run.Val} {ys : List Val} (hargs : SameArgs r s xs ys)
    (hlen : ys.length = params.length)
    (hsees : ∀ s' : Store, s'.heap = s.heap → s'.sight = σ →
      (∀ v ∈ params, ∃ y, s'.locals.find? v = some y ∧ Free r.tree r.plans s'.heap y) →
      Sees holds r vis (s'.enter r.plans i params))
    {entry : Option Lowered.Stmt} (hentry : r.entry? ⟨i, d⟩ i params = .ok entry)
    {body : Lowered.Block} {body' : Eval Val}
    (hbody : ∀ m₁ s₁, Point holds r ⟨i, d⟩ i vis m₁ s₁ m₁ s₁ →
      Agree (Returns holds r s₁) (Returns holds r s₁)
        ((do c.stmts body.stmts; c.option body.tail) m₁) (body' s₁)) :
    Agree (Called holds r m s) (fun _ _ _ _ => False)
      (Run.inFrame (.start handle (params.zip xs))
        (Exec.returning (c.block (Scheme.withEntry entry body))) m)
      (inFrame σ (.ofList (params.zip ys)) (inBlock r.plans (some i) params body') s) := by
  have hp := h.sound.bound.preorder
  let s₁ : Store := { s with sight := σ, locals := .ofList (params.zip ys) }
  let m₁ : Machine :=
    { m with frame := .start handle (params.zip xs), callers := m.frame :: m.callers }
  have hw₁ : World holds r m₁ s₁ := hw.congr rfl rfl rfl rfl rfl rfl hw.depth
  have hf : Framed r ⟨i, d⟩ (Around r.tree.scopes · i) m₁ s₁ :=
    { covers := hcovers
      locals := hargs.rel params
      entered := fun p o _ ho hio => absurd (ho.trans_eq hp hio) (Around.irrefl hp)
      param := hparam
      outer := halive }
  have hlocals (v : VarId) (hv : v ∈ params) := hargs.exists_value hlen hv
  refine agree_inFrame ?_
  rw [block_eq]
  have hagree := agree_body h.sound h.unit hin hw₁ hf (fun v hv => ?_) (hsees s₁ rfl rfl hlocals)
    hentry hbody
  · exact hagree.imp (fun _ _ _ _ hret => ⟨hret.world, hret.grows, hret.same, hret.free⟩)
      fun _ _ _ _ hret => ⟨hret.world, hret.grows, hret.same, hret.free⟩
  obtain ⟨x, hx, -⟩ := hparams.scope v hv
  obtain ⟨y, hy, hfree⟩ := hlocals v hv
  exact ⟨x, y, hx, hy, hfree⟩

/-- A function is run alike. -/
theorem agree_function {f : Function} {g : Lowered.Function} (hf : f ∈ r.tree.fns)
    (hsyn : f.isSynthetic = false) (hg : r.function f = .ok g) (hw : World holds r m s)
    {xs : List Run.Val} {ys : List Val} (hargs : SameArgs r s xs ys) :
    Agree (Called holds r m s) (fun _ _ _ _ => False) (c.function g xs m)
      (c'.function f ys s) := by
  have hr := h.sound
  obtain ⟨body, entry, ps, hbody, hentry, hps, rfl⟩ := Scheme.function_eq_ok hg
  have hps := Scheme.params_eq_ok hps
  have hlen : ps.length = f.params.length := by rw [← hps, List.length_map]
  obtain ⟨hscoped, hscope, hesc, hparams⟩ := hr.bound.fn_body f hf hsyn
  obtain ⟨n, hn⟩ := Array.mem_iff_getElem?.mp hf
  obtain ⟨-, -, x, hx, hkind⟩ := hr.bound.fn_scope n f hn
  have hstart : Vantage r.tree r.plans r.synthesis ⟨f.scope, none⟩ none f.scope (· ∈ f.params) :=
    .function hr.bound hf hsyn
  have hin : InBody r ⟨f.scope, none⟩ f.scope := ⟨hstart.code.body, fun d hd => by cases hd⟩
  have hno := hr.bound.not_around_function hf
  unfold Run.Context.function Context.function
  dsimp only
  rw [hargs.length_eq, hlen]
  split
  · exact .failed _ _ _ rfl
  · next hys =>
    rw [bne_iff_ne, not_not] at hys
    rw [h.plans, bindParams_eq hps]
    exact agree_call h hin hparams hw (fun _ o _ ho => absurd ho (hno o))
      (fun d hd => by cases hd) (fun _ o _ _ ho => absurd ho (hno o)) hargs hys
      (fun s' _ _ hlocals => sees_params hr hparams hx (by rw [hkind]; exact nofun) hlocals) hentry
      fun m₁ s₁ hpoint => agree_plain h ⟨hin, hstart.reach⟩ hscope hscoped hesc hbody hpoint

/-- A closure is run alike. -/
theorem agree_closure {n : Nat} {k : Closure} {l : Lowered.Lambda}
    {accesses : List Lowered.CaptureAccess} (hk : r.tree.closures[n]? = some k)
    (hl : r.lambda k = .ok (l, accesses)) (hw : World holds r m s) {σ : Sight} {handle : Handle}
    (hkeeps : Keeps r handle ⟨n, σ⟩)
    (hcovers : Covers r.tree r.plans s.heap (AroundEq r.tree.scopes · k.declaredIn) σ)
    (hset : ∀ v, r.tree.Needs n v → IsSet r.plans s.heap σ v) (halive : Alive r m.frames k.scope σ)
    {xs : List Run.Val} {ys : List Val} (hargs : SameArgs r s xs ys) :
    Agree (Called holds r m s) (fun _ _ _ _ => False) (c.lambda l handle xs m)
      (c'.closure k σ ys s) := by
  have hr := h.sound
  have hp := hr.bound.preorder
  obtain ⟨b, body, entry, ps, hb, hbody, hentry, hps, hname, rfl, hlbody⟩ := Scheme.lambda_eq_ok hl
  have hps := Scheme.params_eq_ok hps
  have hlen : l.params.length = k.params.length := by rw [← hps, List.length_map]
  rw [hr.bound.closure_id n k hk] at hb
  obtain ⟨hscoped, hesc, hparams⟩ := hr.bound.closure_body n k hk
  obtain ⟨x, hx, hxn, -⟩ := hr.bound.closure_scope n k hk
  have hkind : x.kind = .closure := (hr.bound.closure_iff _ x hx).mpr ⟨n, hxn⟩
  obtain ⟨y, hy⟩ := hr.plans.exists_plan_of_binding hb
  obtain ⟨e, he, -⟩ := hr.exists_env hy
  have hstart := Vantage.closure hr.bound hk hb he
  have hdirect (d : PlanId) (hd : directOf b = some d) :
      r.plans.bindings.find? n = some (.direct d) := by
    cases b <;> cases hd
    exact hb
  have hin : InBody r ⟨k.scope, directOf b⟩ k.scope :=
    ⟨hstart.code.body, fun d hd => ⟨n, k, hk, rfl, hdirect d hd⟩⟩
  have hlambda : l.name = Direct.lambdaName c'.tree k := by
    rw [hr.bound.closure_id n k hk] at hname
    rw [h.tree]
    exact Option.some.inj (hname.symm.trans (hr.synthesis.lambdas n k hk))
  unfold Run.Context.lambda Context.closure
  rw [hargs.length_eq, hlen, hlambda]
  split
  · exact .failed _ _ _ rfl
  · next hys =>
    rw [bne_iff_ne, not_not] at hys
    rw [h.plans, bindParams_eq hps, hlbody]
    refine agree_call h hin hparams hw (hcovers.imp fun o ho =>
      aroundEq_parent hp (hr.bound.parentIn?_closure hk) ho) (fun d hd => ?_) halive
      hargs hys (fun s' hheap hsight hlocals => ?_) hentry
      fun m₁ s₁ hpoint => agree_closureBody h ⟨hin, hstart.reach⟩ hscoped hesc hbody hpoint
    · obtain ⟨a, ha, rfl⟩ := hkeeps d (hdirect d hd)
      exact ⟨a, ha, rfl⟩
    · -- The body sees what the closure needs, which was set when it was made, and its own
      -- parameters.
      refine (sees_needs hr hk fun v hv => ?_).or
        (sees_params hr hparams hx (by rw [hkind]; exact nofun) hlocals)
      rw [hheap, hsight]
      exact hset v hv

/-- Whatever a value stands for is run alike. -/
theorem agree_apply (hw : World holds r m s) {x : Run.Val} {y : Val} (hxy : Same r x y)
    (hgood : Good r.tree r.plans s.heap (Callable r m) y) {xs : List Run.Val} {ys : List Val}
    (hargs : SameArgs r s xs ys) :
    Agree (Called holds r m s) (fun _ _ _ _ => False) (c.apply x xs m) (c'.apply y ys s) := by
  have hr := h.sound
  have htext : x.text = y.text := hxy.text_eq
  cases hxy with
  | fn name =>
    obtain ⟨f, hf, hname, hsyn⟩ := hgood.fn name rfl
    unfold Run.Context.apply Context.apply Context.function?
    dsimp only
    rw [h.tree]
    rcases h.unit.function? name with ⟨hnone, -⟩ | ⟨f', g, hf', hg, hfg⟩
    · have := Array.find?_eq_none.mp hnone f hf
      simp [hname, hsyn] at this
    · rw [hf', hg]
      obtain ⟨hmem, hsyn'⟩ := ScopeTree.source_of_find? hf'
      exact agree_function h hmem hsyn' hfg hw hargs
  | @closure name handle held hkeeps =>
    obtain ⟨hcallable, ⟨k, hk, rfl, hcovers⟩, hset⟩ := hgood.closure name held rfl
    obtain ⟨l, accesses, hl, hlow⟩ := h.unit.lambda? hr hk
    unfold Run.Context.apply Context.apply
    dsimp only
    rw [h.tree, hk, show c.unit.lambda? (Direct.lambdaName r.tree k) = some l from hl]
    exact agree_closure h hk hlow hw hkeeps hcovers hset (hcallable k hk) hargs
  | _ =>
    unfold Run.Context.apply Context.apply
    dsimp only
    rw [htext]
    exact .failed _ _ _ rfl

end

/-- Counted calls end alike. -/
theorem agree_counted {body : Run.Eval Run.Val} {body' : Eval Val} (hw : World holds r m s)
    (h : ∀ n, Agree (Called holds r { m with depth := n } { s with depth := n })
      (fun _ _ _ _ => False) (body { m with depth := n }) (body' { s with depth := n })) :
    Agree (Called holds r m s) (fun _ _ _ _ => False) (Run.counted body m) (counted body' s) := by
  unfold Run.counted counted
  dsimp only
  rw [hw.depth]
  by_cases hdepth : s.depth + 1 > maxCallDepth
  · rw [if_pos hdepth, if_pos hdepth]
    exact .failed _ _ _ rfl
  · rw [if_neg hdepth, if_neg hdepth]
    refine (h (s.depth + 1)).atEnd (fun m₁ => { m₁ with depth := m₁.depth - 1 })
      (fun s₁ => { s₁ with depth := s₁.depth - 1 }) (fun _ _ _ _ hcalled => ?_)
      fun _ _ _ _ => False.elim
    exact ⟨⟨hcalled.world.congr rfl rfl rfl rfl rfl rfl (congrArg (· - 1) hcalled.world.depth),
      hcalled.grows, hcalled.same, hcalled.free⟩, hcalled.frame, hcalled.callers, hcalled.sight,
      hcalled.locals⟩

/-- Calls of values that are alike end alike, however much fuel there is. -/
theorem callsAgree (hr : r.Sound holds) {u : LoweredUnit} (hu : Scheme.UnitOf r u) (fuel : Nat) :
    CallsAgree holds r (Run.call u fuel) (call r.tree r.plans fuel) := by
  induction fuel with
  | zero => exact fun m s _ _ _ _ _ _ _ _ => .outOfFuel m s
  | succ fuel ih =>
    intro m s x y xs ys hw hxy hgood hargs
    have halong : Alongside holds r ⟨u, Run.call u fuel, fuel⟩
        ⟨r.tree, r.plans, call r.tree r.plans fuel, fuel⟩ := ⟨hr, hu, rfl, rfl, rfl, ih⟩
    refine agree_counted hw fun n => ?_
    have hw' : World holds r { m with depth := n } { s with depth := n } :=
      hw.congr rfl rfl rfl rfl rfl rfl rfl
    exact agree_apply halong hw' hxy hgood hargs

/-- Two evaluations of a unit with as much fuel agree. -/
theorem alongside (hr : r.Sound holds) {u : LoweredUnit} (hu : Scheme.UnitOf r u) (fuel : Nat) :
    Alongside holds r (Run.context u fuel) (context r.tree r.plans fuel) :=
  ⟨hr, hu, rfl, rfl, rfl, callsAgree hr hu fuel⟩

end ClosureEnv.Run.Lasting
