import ClosureEnv.Proofs.Lowered.Refs

/-!
# Lowered bodies are well-formed

The induction along the bodies of a tree: wherever code stands, what it is lowered to is well-formed
(`Stages.exprOf`). A step into a block enters the environment of its scope, so that all environments
from the start of the body on have been entered by the blocks around (`Spot.enter`).
-/

namespace ClosureEnv

open Lowered (Scheme Inside Heads EnvRef Place EnvOperand Lambda)
open Lowered.Scheme (directOf entry?_eq_ok env_eq_ok)

variable {t : ScopeTree} {holds : VarId → ClosureId → Prop} {options : LowerOptions}
  {baseline : Option Baseline} {u : LoweredUnit} {a : Captures} {ps : PlanTable} {s : Synthesis}
  {xs : List Synthesis.Settlement} {cx : Inside} {param : Option String} {heads : Heads}
  {scope i : ScopeId} {vis : VarId → Prop}

/-- A spot in a body: what is visible there, and what has been entered. -/
structure Spot (t : ScopeTree) (ps : PlanTable) (s : Synthesis) (cx : Inside)
    (param : Option String) (heads : Heads) (scope : ScopeId) (vis : VarId → Prop) : Prop
    extends Vantage t ps s cx param scope vis where
  /-- The environments of the scopes around have been entered. -/
  entered : Entered t ps s cx heads scope

section

variable (h : t.WellBound holds) (hs : Stages t options baseline u a ps s xs)

/-! ## Variables -/

include hs in
/-- A variable with a slot has a plan. -/
theorem Stages.exists_plan {v : VarId} (hv : (u.setting t ps param).HasSlot v) :
    ∃ p, ps.varPlan.find? v = some p := by
  obtain ⟨e, he, f, hf, hfv⟩ := hv
  obtain ⟨x, hx, hmade⟩ := hs.account.standsFor hs.plans (hs.getElem?_plan he)
  exact ⟨_, (hs.plans.linking.placed.slot _ x v hx (hmade.fields f hf v hfv)).2.1⟩

/-- The name of a variable. -/
theorem isNamed_of_varName {v : VarId} {name : String}
    (hname : Scheme.varName ⟨t, ps, s⟩ v = .ok name) : (u.setting t ps param).IsNamed v name := by
  obtain ⟨x, hx, hname⟩ := Lower.bind_eq_ok.mp hname
  exact ⟨x, ScopeTree.var_eq_ok.mp hx, Lower.pure_eq_ok.mp hname⟩

include h hs

/-- A reference to an environment that is handed on leads there. -/
theorem Stages.exists_envRef (hcode : CodeAt t ps s cx param scope) {p : PlanId} {o : ScopeId}
    (hp : PlanTable.Handed t ps p o scope)
    (hheads : AroundEq t.scopes cx.scope o → ∀ e, s.envs[p]? = some e →
      (Name.envLocal p, e.name) ∈ heads) :
    ∃ ref e, Scheme.envRef ⟨t, ps, s⟩ cx p = .ok ref ∧ s.envs[p]? = some e ∧ ref.env = e.name ∧
      (u.setting t ps param).Leads heads ref :=
  hs.toPrepared.exists_envRef h hcode (w := u.setting t ps param) hs.unit.envs rfl hp hheads

/-- The place of a variable is its slot. -/
theorem Stages.isPlace (hcode : CodeAt t ps s cx param scope) {v : VarId} {p : PlanId} {o : ScopeId}
    (hv : ps.varPlan.find? v = some p) (hp : PlanTable.Handed t ps p o scope)
    (hheads : AroundEq t.scopes cx.scope o → ∀ e, s.envs[p]? = some e →
      (Name.envLocal p, e.name) ∈ heads) {place : Place}
    (hplace : Scheme.place? ⟨t, ps, s⟩ cx v = .ok (some place)) :
    (u.setting t ps param).IsPlace heads v place := by
  obtain ⟨ref, e, href, he, henv, hleads⟩ := hs.exists_envRef h hcode hp hheads
  unfold Scheme.place? at hplace
  rw [hv] at hplace
  dsimp only at hplace
  rw [env_eq_ok.mpr he, Lower.ok_bind] at hplace
  obtain ⟨f, hf, hplace⟩ := Lower.bind_eq_ok.mp hplace
  rw [href, Lower.ok_bind, Lower.pure_eq_ok, Option.some.injEq] at hplace
  subst hplace
  obtain ⟨hmem, hvar⟩ := HasFields.mem_of_fieldFor (Lower.orInconsistent_eq_ok.mp hf)
  exact ⟨hleads, e, hs.mem_envs.mpr ⟨p, he⟩, henv.symm, f, hmem, rfl, hvar⟩

/-- The place of a visible variable is its slot, if it has one. -/
theorem Spot.isPlace (hspot : Spot t ps s cx param heads scope vis) {v : VarId} (hv : vis v)
    {place : Place} (hplace : Scheme.place? ⟨t, ps, s⟩ cx v = .ok (some place)) :
    (u.setting t ps param).IsPlace heads v place := by
  obtain ⟨p, hp⟩ : ∃ p, ps.varPlan.find? v = some p := by
    cases hp : ps.varPlan.find? v with
    | none =>
      unfold Scheme.place? at hplace
      rw [hp] at hplace
      cases hplace
    | some p => exact ⟨p, rfl⟩
  obtain ⟨x, o, -, hhanded, -⟩ := hs.plans.handed_of_varPlan h hspot.reach hv hp
  exact hs.isPlace h hspot.code hp hhanded
    (fun hco e he => hspot.entered p o e hhanded.origin hco hhanded.around he) hplace

omit h in
/-- A variable without a place has no slot. -/
theorem Stages.not_hasSlot {v : VarId} (hplace : Scheme.place? ⟨t, ps, s⟩ cx v = .ok none) :
    ¬ (u.setting t ps param).HasSlot v := by
  intro hv
  obtain ⟨p, hp⟩ := hs.exists_plan hv
  unfold Scheme.place? at hplace
  rw [hp] at hplace
  obtain ⟨e, -, hplace⟩ := Lower.bind_eq_ok.mp hplace
  obtain ⟨f, -, hplace⟩ := Lower.bind_eq_ok.mp hplace
  obtain ⟨ref, -, hplace⟩ := Lower.bind_eq_ok.mp hplace
  cases hplace

/-- A variable that is read. -/
theorem Spot.read (hspot : Spot t ps s cx param heads scope vis) {v : VarId} (hv : vis v)
    {x : Lowered.Expr} (hx : Scheme.read ⟨t, ps, s⟩ cx v = .ok x) :
    (u.setting t ps param).ExprOf heads (.var v) x := by
  obtain ⟨o, ho, hx⟩ := Lower.bind_eq_ok.mp hx
  cases o with
  | some place =>
    cases hx
    exact .load (hspot.isPlace h hs hv ho)
  | none =>
    obtain ⟨name, hname, hx⟩ := Lower.bind_eq_ok.mp hx
    cases hx
    exact .var (hs.not_hasSlot ho) (isNamed_of_varName hname)

/-- A variable that is written: to its slot, or as it is. -/
theorem Spot.write (hspot : Spot t ps s cx param heads scope vis) {v : VarId} (hv : vis v)
    {plain : VarId → String → Lowered.Expr → Lowered.Stmt} {value : Lowered.Expr}
    {x : Lowered.Stmt} (hx : Scheme.write ⟨t, ps, s⟩ cx v plain value = .ok x) :
    (∃ place, (u.setting t ps param).IsPlace heads v place ∧ x = .store place value) ∨
      ∃ name, ¬ (u.setting t ps param).HasSlot v ∧ (u.setting t ps param).IsNamed v name ∧
        x = plain v name value := by
  obtain ⟨o, ho, hx⟩ := Lower.bind_eq_ok.mp hx
  cases o with
  | some place =>
    cases hx
    exact .inl ⟨place, hspot.isPlace h hs hv ho, rfl⟩
  | none =>
    obtain ⟨name, hname, hx⟩ := Lower.bind_eq_ok.mp hx
    cases hx
    exact .inr ⟨name, hs.not_hasSlot ho, isNamed_of_varName hname, rfl⟩

/-! ## Entries -/

omit h hs in
/-- The arguments of an entry. -/
theorem argument_of_entryArg {params : List VarId} {v : VarId} {x : Lowered.Expr}
    (hx : Scheme.entryArg ⟨t, ps, s⟩ params v = .ok x) {f : EnvField} (hf : f.var = some v) :
    (u.setting t ps param).Argument params f x := by
  unfold Scheme.entryArg at hx
  split at hx
  · next hv =>
    obtain ⟨name, hname, hx⟩ := Lower.bind_eq_ok.mp hx
    cases hx
    exact .param hf (List.contains_iff_mem.mp hv) (isNamed_of_varName hname)
  · next hv =>
    cases hx
    exact .uninit hf fun hmem => hv (List.contains_iff_mem.mpr hmem)

omit h hs in
/-- There is an argument for each live field, in their order. -/
theorem arguments_of_mapM {params : List VarId} :
    ∀ {fields : List EnvField} {args : List Lowered.Expr},
    (fields.filterMap EnvField.var).mapM (Scheme.entryArg ⟨t, ps, s⟩ params) = .ok args →
    List.Forall₂ ((u.setting t ps param).Argument params) (fields.filter (·.var.isSome)) args := by
  intro fields args hargs
  have hall := Lower.mapM_eq_ok.mp hargs
  clear hargs
  induction fields generalizing args with
  | nil =>
    cases hall
    exact .nil
  | cons f fields ih =>
    cases hf : f.var with
    | none =>
      rw [List.filterMap_cons_none hf] at hall
      rw [List.filter_cons_of_neg (by simp [hf])]
      exact ih hall
    | some v =>
      rw [List.filterMap_cons_some hf] at hall
      rw [List.filter_cons_of_pos (by simp [hf])]
      cases hall with
      | cons hx hrest => exact .cons (argument_of_entryArg hx hf) (ih hrest)

/-- The parent of an entry is the environment of the parent. -/
theorem CodeAt.parent (hcode : CodeAt t ps s cx param i)
    (hheads : ∀ p o e, ps.From p o → AroundEq t.scopes cx.scope o → Around t.scopes o i →
      s.envs[p]? = some e → (Name.envLocal p, e.name) ∈ heads) {p : Nat} {x : Plan} {e : EnvType}
    (hp : ps.From p i) (hx : ps.plans[p]? = some x) (hmade : Synthesis.StandsFor ps s p x e)
    {parent : Option EnvRef}
    (hparent : x.parent.mapM (Scheme.envRef ⟨t, ps, s⟩ cx) = .ok parent) :
    parent.map EnvRef.env = e.parent ∧
      ∀ ref ∈ parent, (u.setting t ps param).Leads heads ref := by
  have hname := hmade.parent
  unfold Synthesis.parentName at hname
  cases hq : x.parent with
  | none =>
    rw [hq] at hname hparent
    cases hparent
    exact ⟨Lower.pure_eq_ok.mp hname, fun ref href => by cases href⟩
  | some q =>
    rw [hq] at hname hparent
    obtain ⟨ref, href, hparent⟩ := Lower.bind_eq_ok.mp hparent
    cases hparent
    obtain ⟨f, hf, hname⟩ := Lower.bind_eq_ok.mp hname
    rw [Lower.orInconsistent_eq_ok] at hf
    obtain ⟨o, hhanded, hoi⟩ := hs.plans.handed_of_parent hp
      (PlanTable.parent?_eq_some.mpr ⟨x, hx, hq⟩)
    obtain ⟨ref', g, href', hg, henv, hleads⟩ := hs.exists_envRef h hcode hhanded
      fun hco e he => hheads q o e hhanded.origin hco hoi he
    cases href.symm.trans href'
    cases hf.symm.trans hg
    refine ⟨?_, fun r hr => Option.mem_some.mp hr ▸ hleads⟩
    rw [← Lower.pure_eq_ok.mp hname, ← henv]
    rfl

/-- What stands at the head of the code of a scope, when the environments of the scopes around it
have been entered. -/
theorem CodeAt.enters (hcode : CodeAt t ps s cx param i)
    (hheads : ∀ p o e, ps.From p o → AroundEq t.scopes cx.scope o → Around t.scopes o i →
      s.envs[p]? = some e → (Name.envLocal p, e.name) ∈ heads) {params : List VarId}
    {entry : Option Lowered.Stmt} (hentry : Scheme.entry? ⟨t, ps, s⟩ cx i params = .ok entry) :
    ∃ within, (u.setting t ps param).Enters heads i params entry within ∧
      Entered t ps s cx within i := by
  rcases entry?_eq_ok hentry with
    ⟨rfl, hno⟩ | ⟨p, x, e, args, parent, hx, ho, he, hargs, hparent, rfl⟩
  · replace hno (q : PlanId) (hq : ps.From q i) : False :=
      hno q (hs.plans.linking.placed.scope_known q i hq) hq
    refine ⟨heads, .none fun e _ => hno e.plan, fun p o e hp hco hoi he => hheads p o e hp hco ?_ he⟩
    exact hoi.resolve_left fun heq => hno p (heq ▸ hp)
  · have hp : ps.From p i := ⟨x, hx, ho⟩
    obtain ⟨y, hy, hmade⟩ := hs.account.standsFor hs.plans he
    cases hx.symm.trans hy
    have hmem : e ∈ u.envs := hs.mem_envs.mpr ⟨p, he⟩
    obtain ⟨hname, hleads⟩ := hcode.parent h hs hheads hp hx hmade hparent
    refine ⟨(Name.envLocal p, e.name) :: heads, ?_, fun q o f hq hco hoi hf => ?_⟩
    · have hall : List.Forall₂ ((u.setting t ps param).Argument params) e.liveFields args :=
        arguments_of_mapM hargs
      have henter := Lowered.Setting.Enters.some hmem (hmade.plan.symm ▸ hp : ps.From e.plan i)
        hall hname hleads
      rwa [hmade.plan, hmade.kind] at henter
    · rcases hoi with rfl | hoi
      · obtain rfl := hs.plans.linking.placed.from_inj hp hq
        cases he.symm.trans hf
        exact List.mem_cons_self
      · exact List.mem_cons_of_mem _ (hheads q o f hq hco hoi hf)

/-! ## Closures -/

omit h in
/-- The lambda of a closure, with what it was lowered to. -/
theorem Stages.exists_lambda {c : Nat} {k : Closure} (hk : t.closures[c]? = some k) :
    ∃ l accesses, l ∈ u.lambdas ∧ Scheme.lambda ⟨t, ps, s⟩ k = .ok (l, accesses) := by
  obtain ⟨hlen, hget⟩ := List.forall₂_iff_get.mp hs.unit.lambdas
  have hc : c < t.closures.toList.length := by
    rw [Array.length_toList]
    exact (Array.getElem?_eq_some_iff.mp hk).1
  have hkc : t.closures.toList.get ⟨c, hc⟩ = k := by
    rw [← Array.getElem?_toList] at hk
    exact (List.getElem?_eq_some_iff.mp hk).2
  obtain ⟨accesses, hl⟩ := hget c hc (hlen ▸ hc)
  rw [hkc] at hl
  exact ⟨_, accesses, List.get_mem _ _, hl⟩

/-- A closure is made with what its lambda takes. -/
theorem Spot.makes (hspot : Spot t ps s cx param heads scope vis) {c : ClosureId} {k : Closure}
    (hk : t.closures[c]? = some k) (hd : k.declaredIn = scope) {name : String}
    {b : ClosureBinding} {env : EnvOperand}
    (hname : Scheme.lambdaName ⟨t, ps, s⟩ c = .ok name)
    (hb : Scheme.binding ⟨t, ps, s⟩ c = .ok b)
    (henv : Scheme.operand ⟨t, ps, s⟩ cx b = .ok env) :
    (u.setting t ps param).Makes heads c name env := by
  obtain ⟨l, accesses, hmem, hl⟩ := hs.exists_lambda hk
  obtain ⟨b', e, hb', he, hclosure, hlenv, -⟩ := Scheme.lambda_rest hl
  obtain ⟨-, -, -, -, -, -, -, -, hlname, -⟩ := Scheme.lambda_eq_ok hl
  rw [h.closure_id c k hk] at hb' hclosure hlname
  cases (Lower.orInconsistent_eq_ok.mp hb).symm.trans hb'
  cases (Lower.orInconsistent_eq_ok.mp hname).symm.trans hlname
  rw [env_eq_ok] at he
  unfold Scheme.operand at henv
  cases b with
  -- The environment is that of a plan that the place of the closure can refer to.
  | direct p =>
    obtain ⟨ref, href, henv⟩ := Lower.bind_eq_ok.mp henv
    cases henv
    obtain ⟨o, hhanded⟩ := hs.plans.handed_of_direct h hk hb'
    rw [hd] at hhanded
    obtain ⟨ref', g, href', hg, hrefenv, hleads⟩ := hs.exists_envRef h hspot.code hhanded
      fun hco e he => hspot.entered p o e hhanded.origin hco hhanded.around he
    cases href.symm.trans href'
    cases he.symm.trans hg
    refine ⟨⟨l, hmem, hclosure, rfl, hlenv.trans hrefenv.symm⟩, fun r hr => ?_⟩
    cases hr
    exact hleads
  | singleton p | fresh p =>
    obtain ⟨g, hg, henv⟩ := Lower.bind_eq_ok.mp henv
    cases henv
    cases he.symm.trans (env_eq_ok.mp hg)
    exact ⟨⟨l, hmem, hclosure, rfl, hlenv⟩, fun r hr => by cases hr⟩

/-! ## Code -/

omit hs in
/-- More is visible after a statement. -/
theorem Spot.declare (hspot : Spot t ps s cx param heads scope vis) {x : Bound.Stmt}
    (hx : x.Scoped t holds scope vis) :
    Spot t ps s cx param heads scope (Bound.after vis [x]) :=
  ⟨hspot.toVantage.declare h hx, hspot.entered⟩

omit hs in
/-- More is visible after statements. -/
theorem Spot.after (hspot : Spot t ps s cx param heads scope vis) {ss : List Bound.Stmt}
    (hss : Bound.stmtsScoped t holds scope vis ss) :
    Spot t ps s cx param heads scope (Bound.after vis ss) :=
  ⟨hspot.toVantage.after h hss, hspot.entered⟩

/-- What stands at the head of a block that opens a scope, and the spot after it. -/
theorem Spot.enters (hspot : Spot t ps s cx param heads scope vis) {kind : ScopeKind}
    (hopens : Bound.Opens t scope i kind) (hkind : kind = .block ∨ kind = .loop)
    {entry : Option Lowered.Stmt} (hentry : Scheme.entry? ⟨t, ps, s⟩ cx i [] = .ok entry) :
    ∃ within, (u.setting t ps param).Enters heads i [] entry within ∧
      Spot t ps s cx param within i vis := by
  have hwithin := hspot.toVantage.enter h hopens hkind
  obtain ⟨within, henters, hentered⟩ := hwithin.code.enters h hs (fun p o e hp hco hoi he =>
    hspot.entered p o e hp hco (aroundEq_parent h.preorder hopens.parent hoi) he) hentry
  exact ⟨within, henters, hwithin, hentered⟩

end

mutual

/-- Expressions are well-formed. -/
theorem Stages.exprOf (hs : Stages t options baseline u a ps s xs) (h : t.WellBound holds) :
    ∀ (e : Bound.Expr) {heads : Heads} {scope : ScopeId} {vis : VarId → Prop}
    {x : Lowered.Expr}, Spot t ps s cx param heads scope vis → e.Scoped t holds scope vis →
    Scheme.expr ⟨t, ps, s⟩ cx e = .ok x → (u.setting t ps param).ExprOf heads e x
  | .lit value, heads, scope, vis, x, hspot, he, hx => by
    rw [Scheme.expr] at hx
    cases hx
    exact .lit value
  | .var v, heads, scope, vis, x, hspot, he, hx => by
    rw [Scheme.expr] at hx
    exact hspot.read h hs he hx
  | .global name, heads, scope, vis, x, hspot, he, hx => by
    rw [Scheme.expr] at hx
    cases hx
    exact .global name
  | .fn name, heads, scope, vis, x, hspot, he, hx => by
    rw [Scheme.expr] at hx
    cases hx
    exact .fn name
  | .unary op operand, heads, scope, vis, x, hspot, he, hx => by
    rw [Scheme.expr] at hx
    obtain ⟨y, hy, hx⟩ := Lower.bind_eq_ok.mp hx
    cases hx
    exact .unary op (hs.exprOf h operand hspot he hy)
  | .binary op lhs rhs, heads, scope, vis, x, hspot, he, hx => by
    rw [Scheme.expr] at hx
    obtain ⟨l, hl, hx⟩ := Lower.bind_eq_ok.mp hx
    obtain ⟨r, hr, hx⟩ := Lower.bind_eq_ok.mp hx
    cases hx
    exact .binary op (hs.exprOf h lhs hspot he.1 hl) (hs.exprOf h rhs hspot he.2 hr)
  | .call callee args, heads, scope, vis, x, hspot, he, hx => by
    rw [Scheme.expr] at hx
    obtain ⟨ys, hys, hx⟩ := Lower.bind_eq_ok.mp hx
    obtain ⟨f, hf, hx⟩ := Lower.bind_eq_ok.mp hx
    cases hx
    exact .call (hs.exprOf h callee hspot he.1 hf) (hs.exprsOf h args hspot he.2.1 hys)
  | .block body, heads, scope, vis, x, hspot, he, hx => by
    rw [Scheme.expr] at hx
    obtain ⟨y, hy, hx⟩ := Lower.bind_eq_ok.mp hx
    cases hx
    obtain ⟨hbody, i, hi, hopens, -⟩ := he
    exact .block (hs.blockOf h body hspot hi hopens (.inl rfl) hbody hy)
  | .cond test yes no, heads, scope, vis, x, hspot, he, hx => by
    rw [Scheme.expr] at hx
    obtain ⟨c, hc, hx⟩ := Lower.bind_eq_ok.mp hx
    obtain ⟨y, hy, hx⟩ := Lower.bind_eq_ok.mp hx
    obtain ⟨n, hn, hx⟩ := Lower.bind_eq_ok.mp hx
    cases hx
    obtain ⟨htest, hyes, ⟨i, hi, hopens, -⟩, hno⟩ := he
    exact .cond (hs.exprOf h test hspot htest hc)
      (hs.blockOf h yes hspot hi hopens (.inl rfl) hyes hy)
      (hs.optionOf h no hspot hno hn)
  | .loop test body, heads, scope, vis, x, hspot, he, hx => by
    rw [Scheme.expr] at hx
    obtain ⟨c, hc, hx⟩ := Lower.bind_eq_ok.mp hx
    obtain ⟨y, hy, hx⟩ := Lower.bind_eq_ok.mp hx
    cases hx
    obtain ⟨htest, hbody, i, hi, hopens⟩ := he
    exact .loop (hs.exprOf h test hspot htest hc)
      (hs.blockOf h body hspot hi hopens (.inr rfl) hbody hy)
  | .closure c, heads, scope, vis, x, hspot, he, hx => by
    rw [Scheme.expr] at hx
    obtain ⟨name, hname, hx⟩ := Lower.bind_eq_ok.mp hx
    obtain ⟨b, hb, hx⟩ := Lower.bind_eq_ok.mp hx
    obtain ⟨env, henv, hx⟩ := Lower.bind_eq_ok.mp hx
    cases hx
    obtain ⟨k, hk, hd, -⟩ := he
    exact .closure (hspot.makes h hs hk hd hname hb henv)

/-- Optional expressions are well-formed. -/
theorem Stages.optionOf (hs : Stages t options baseline u a ps s xs) (h : t.WellBound holds) :
    ∀ (e : Option Bound.Expr) {heads : Heads} {scope : ScopeId}
    {vis : VarId → Prop} {x : Option Lowered.Expr}, Spot t ps s cx param heads scope vis →
    Bound.optionScoped t holds scope vis e → Scheme.option ⟨t, ps, s⟩ cx e = .ok x →
    (u.setting t ps param).OptionOf heads e x
  | none, heads, scope, vis, x, hspot, he, hx => by
    rw [Scheme.option] at hx
    cases hx
    exact .none
  | some e, heads, scope, vis, x, hspot, he, hx => by
    rw [Scheme.option] at hx
    obtain ⟨y, hy, hx⟩ := Lower.bind_eq_ok.mp hx
    cases hx
    exact .some (hs.exprOf h e hspot he hy)

/-- Arguments are well-formed. -/
theorem Stages.exprsOf (hs : Stages t options baseline u a ps s xs) (h : t.WellBound holds) :
    ∀ (es : List Bound.Expr) {heads : Heads} {scope : ScopeId}
    {vis : VarId → Prop} {xs : List Lowered.Expr}, Spot t ps s cx param heads scope vis →
    Bound.exprsScoped t holds scope vis es → Scheme.exprs ⟨t, ps, s⟩ cx es = .ok xs →
    (u.setting t ps param).ExprsOf heads es xs
  | [], heads, scope, vis, xs, hspot, he, hx => by
    rw [Scheme.exprs] at hx
    cases hx
    exact .nil
  | e :: es, heads, scope, vis, xs, hspot, he, hx => by
    rw [Scheme.exprs] at hx
    obtain ⟨y, hy, hx⟩ := Lower.bind_eq_ok.mp hx
    obtain ⟨ys, hys, hx⟩ := Lower.bind_eq_ok.mp hx
    cases hx
    exact .cons (hs.exprOf h e hspot he.1 hy) (hs.exprsOf h es hspot he.2 hys)

/-- Blocks that open a scope are well-formed. -/
theorem Stages.blockOf (hs : Stages t options baseline u a ps s xs) (h : t.WellBound holds) :
    ∀ (b : Bound.Block) {heads : Heads} {scope i : ScopeId}
    {vis : VarId → Prop} {kind : ScopeKind} {x : Lowered.Block},
    Spot t ps s cx param heads scope vis → b.scope = some i → Bound.Opens t scope i kind →
    kind = .block ∨ kind = .loop → b.Scoped t holds scope vis →
    Scheme.block ⟨t, ps, s⟩ cx b = .ok x → (u.setting t ps param).BlockOf heads b x
  | .mk o ss tail, heads, scope, i, vis, kind, x, hspot, hi, hopens, hkind, hb, hx => by
    obtain rfl : o = some i := hi
    rw [Scheme.block] at hx
    obtain ⟨entry, hentry, hx⟩ := Lower.bind_eq_ok.mp hx
    obtain ⟨xs, hxs, hx⟩ := Lower.bind_eq_ok.mp hx
    obtain ⟨y, hy, hx⟩ := Lower.bind_eq_ok.mp hx
    cases hx
    obtain ⟨within, henters, hwithin⟩ := hspot.enters h hs hopens hkind hentry
    exact .opened henters (hs.stmtsOf h ss hwithin hb.1 hxs)
      (hs.optionOf h tail (hwithin.after h hb.1) hb.2 hy) rfl

/-- Statements are well-formed. -/
theorem Stages.stmtOf (hs : Stages t options baseline u a ps s xs) (h : t.WellBound holds) :
    ∀ (e : Bound.Stmt) {heads : Heads} {scope : ScopeId}
    {vis : VarId → Prop} {x : Lowered.Stmt}, Spot t ps s cx param heads scope vis →
    e.Scoped t holds scope vis → Scheme.stmt ⟨t, ps, s⟩ cx e = .ok x →
    (u.setting t ps param).StmtOf heads e x
  | .bind v value, heads, scope, vis, x, hspot, he, hx => by
    rw [Scheme.stmt] at hx
    obtain ⟨y, hy, hx⟩ := Lower.bind_eq_ok.mp hx
    have hvalue := hs.exprOf h value hspot he.1 hy
    rcases (hspot.declare h he).write h hs (.inr List.mem_cons_self) hx with
      ⟨place, hplace, rfl⟩ | ⟨name, hno, hname, rfl⟩
    · exact .bindSlot hplace hvalue
    · exact .bind hno hname hvalue
  | .assign (.var v) value, heads, scope, vis, x, hspot, he, hx => by
    rw [Scheme.stmt] at hx
    obtain ⟨y, hy, hx⟩ := Lower.bind_eq_ok.mp hx
    have hvalue := hs.exprOf h value hspot he.1 hy
    rcases hspot.write h hs he.2.1 hx with ⟨place, hplace, rfl⟩ | ⟨name, hno, hname, rfl⟩
    · exact .assignSlot hplace hvalue
    · exact .assign hno hname hvalue
  | .assign (.global name) value, heads, scope, vis, x, hspot, he, hx => by
    rw [Scheme.stmt] at hx
    obtain ⟨y, hy, hx⟩ := Lower.bind_eq_ok.mp hx
    cases hx
    exact .assignGlobal name (hs.exprOf h value hspot he.1 hy)
  | .expr value, heads, scope, vis, x, hspot, he, hx => by
    rw [Scheme.stmt] at hx
    obtain ⟨y, hy, hx⟩ := Lower.bind_eq_ok.mp hx
    cases hx
    exact .expr (hs.exprOf h value hspot he hy)
  | .ret value, heads, scope, vis, x, hspot, he, hx => by
    rw [Scheme.stmt] at hx
    obtain ⟨y, hy, hx⟩ := Lower.bind_eq_ok.mp hx
    cases hx
    exact .ret (hs.optionOf h value hspot he.1 hy)

/-- Sequences of statements are well-formed. -/
theorem Stages.stmtsOf (hs : Stages t options baseline u a ps s xs) (h : t.WellBound holds) :
    ∀ (ss : List Bound.Stmt) {heads : Heads} {scope : ScopeId}
    {vis : VarId → Prop} {xs : List Lowered.Stmt}, Spot t ps s cx param heads scope vis →
    Bound.stmtsScoped t holds scope vis ss → Scheme.stmtList ⟨t, ps, s⟩ cx ss = .ok xs →
    (u.setting t ps param).StmtsOf heads ss xs
  | [], heads, scope, vis, xs, hspot, he, hx => by
    rw [Scheme.stmtList] at hx
    cases hx
    exact .nil
  | e :: es, heads, scope, vis, xs, hspot, he, hx => by
    rw [Scheme.stmtList] at hx
    obtain ⟨y, hy, hx⟩ := Lower.bind_eq_ok.mp hx
    obtain ⟨ys, hys, hx⟩ := Lower.bind_eq_ok.mp hx
    cases hx
    exact .cons (hs.stmtOf h e hspot he.1 hy) (hs.stmtsOf h es (hspot.declare h he.1) he.2 hys)

end

end ClosureEnv
