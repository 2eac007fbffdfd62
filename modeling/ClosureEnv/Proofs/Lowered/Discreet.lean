import ClosureEnv.Proofs.Lowered.Sound
import ClosureEnv.Proofs.Run.Instances

/-!
# Lowered units are sheltered

A body is lowered with an environment to go to only if its closure is bound to that of a scope, and
a closure is made with an empty environment only if it is not. So lowered code is discreet, and the
units that it makes up are sheltered (`Stages.sheltered`).
-/

namespace ClosureEnv.Lowered.Scheme

variable {r : Scheme} {cx : Inside} {D : String → Prop} {may : Prop}

/-- Closures that are bound to an empty environment are not of lambdas of which `D` holds. -/
def Spares (r : Scheme) (D : String → Prop) : Prop :=
  ∀ c b name, r.plans.bindings.find? c = some b → directOf b = none →
    r.synthesis.lambdaNames.find? c = some name → ¬ D name

/-- The way to an environment is discreet if there is none to go to but the lambda may. -/
theorem discreet_envRef (hcx : ∀ d, cx.envParam = some d → may) {p : PlanId} {ref : EnvRef}
    (h : r.envRef cx p = .ok ref) : ref.Discreet may := by
  unfold envRef at h
  obtain ⟨plan, -, h⟩ := Lower.bind_eq_ok.mp h
  obtain ⟨e, -, h⟩ := Lower.bind_eq_ok.mp h
  obtain ⟨entered, -, h⟩ := Lower.bind_eq_ok.mp h
  split at h
  · cases h
    exact nofun
  · obtain ⟨d, hd, h⟩ := Lower.bind_eq_ok.mp h
    exact fun _ => hcx d (Lower.orInconsistent_eq_ok.mp hd)

/-- The place of a variable is reached discreetly. -/
theorem discreet_place (hcx : ∀ d, cx.envParam = some d → may) {v : VarId} {place : Place}
    (h : r.place? cx v = .ok (some place)) : place.env.Discreet may := by
  unfold place? at h
  split at h
  · cases h
  · obtain ⟨e, -, h⟩ := Lower.bind_eq_ok.mp h
    obtain ⟨f, -, h⟩ := Lower.bind_eq_ok.mp h
    obtain ⟨ref, href, h⟩ := Lower.bind_eq_ok.mp h
    cases h
    exact discreet_envRef hcx href

/-- A read of a variable is discreet. -/
theorem discreet_read (hcx : ∀ d, cx.envParam = some d → may) {v : VarId} {x : Expr}
    (h : r.read cx v = .ok x) : x.Discreet D may := by
  unfold read at h
  obtain ⟨o, ho, h⟩ := Lower.bind_eq_ok.mp h
  cases o with
  | some place =>
    cases h
    exact discreet_place hcx ho
  | none =>
    obtain ⟨name, -, h⟩ := Lower.bind_eq_ok.mp h
    cases h
    exact trivial

/-- A write to a variable is discreet if what is written is. -/
theorem discreet_write (hcx : ∀ d, cx.envParam = some d → may) {v : VarId}
    {plain : VarId → String → Expr → Stmt} {value : Expr} (hvalue : value.Discreet D may)
    (hplain : ∀ name, (plain v name value).Discreet D may) {x : Stmt}
    (h : r.write cx v plain value = .ok x) : x.Discreet D may := by
  unfold write at h
  obtain ⟨o, ho, h⟩ := Lower.bind_eq_ok.mp h
  cases o with
  | some place =>
    cases h
    exact ⟨discreet_place hcx ho, hvalue⟩
  | none =>
    obtain ⟨name, -, h⟩ := Lower.bind_eq_ok.mp h
    cases h
    exact hplain name

/-- The arguments of an entry are discreet. -/
theorem discreet_entryArgs {params vars : List VarId} {args : List Expr}
    (h : vars.mapM (r.entryArg params) = .ok args) : exprsDiscreet D may args := by
  have hall := Lower.mapM_eq_ok.mp h
  clear h
  induction hall with
  | nil => exact trivial
  | cons harg _ ih =>
    refine ⟨?_, ih⟩
    unfold entryArg at harg
    split at harg
    · obtain ⟨name, -, harg⟩ := Lower.bind_eq_ok.mp harg
      cases harg
      exact trivial
    · cases harg
      exact trivial

/-- The entry of a scope is discreet. -/
theorem discreet_entry (hcx : ∀ d, cx.envParam = some d → may) {s : ScopeId} {params : List VarId}
    {entry : Option Stmt} (h : r.entry? cx s params = .ok entry) :
    ∀ x ∈ entry, x.Discreet D may := by
  rcases entry?_eq_ok h with ⟨rfl, -⟩ | ⟨p, plan, e, args, parent, -, -, -, hargs, hparent, rfl⟩
  · exact nofun
  · rintro x hx
    cases hx
    refine ⟨discreet_entryArgs hargs, fun ref href => ?_⟩
    cases hq : plan.parent with
    | none =>
      rw [hq] at hparent
      cases hparent
      cases href
    | some q =>
      rw [hq] at hparent
      obtain ⟨ref', href', hparent⟩ := Lower.bind_eq_ok.mp hparent
      cases hparent
      cases href
      exact discreet_envRef hcx href'

/-- A block with a discreet entry in front is discreet. -/
theorem discreet_withEntry {entry : Option Stmt} (hentry : ∀ x ∈ entry, x.Discreet D may)
    {b : Block} (hb : b.Discreet D may) : (withEntry entry b).Discreet D may := by
  cases entry with
  | none => exact hb
  | some x =>
    obtain ⟨ss, tail⟩ := b
    exact ⟨⟨hentry x rfl, hb.1⟩, hb.2⟩

/-- The environment for a closure is reached discreetly. -/
theorem discreet_operand (hcx : ∀ d, cx.envParam = some d → may) (hD : r.Spares D) {c : ClosureId}
    {b : ClosureBinding} (hb : r.plans.bindings.find? c = some b) {name : String}
    (hname : r.synthesis.lambdaNames.find? c = some name) {env : EnvOperand}
    (h : r.operand cx b = .ok env) : env.Discreet D may name := by
  unfold operand at h
  cases b with
  | direct p =>
    obtain ⟨ref, href, h⟩ := Lower.bind_eq_ok.mp h
    cases h
    exact discreet_envRef hcx href
  | singleton p | fresh p =>
    obtain ⟨e, -, h⟩ := Lower.bind_eq_ok.mp h
    cases h
    exact hD c _ name hb rfl hname

mutual

/-- Expressions are lowered to discreet ones. -/
theorem discreet_expr (hcx : ∀ d, cx.envParam = some d → may) (hD : r.Spares D) :
    ∀ (e : Bound.Expr) {x}, r.expr cx e = .ok x → x.Discreet D may
  | .lit _, x, h | .global _, x, h | .fn _, x, h => by
    rw [expr] at h
    cases h
    exact trivial
  | .var v, x, h => by
    rw [expr] at h
    exact discreet_read hcx h
  | .unary op e, x, h => by
    rw [Scheme.expr] at h
    obtain ⟨y, hy, h⟩ := Lower.bind_eq_ok.mp h
    cases h
    rw [Expr.Discreet]
    exact discreet_expr hcx hD e hy
  | .binary op e f, x, h => by
    rw [expr] at h
    obtain ⟨y, hy, h⟩ := Lower.bind_eq_ok.mp h
    obtain ⟨z, hz, h⟩ := Lower.bind_eq_ok.mp h
    cases h
    exact ⟨discreet_expr hcx hD e hy, discreet_expr hcx hD f hz⟩
  | .call f es, x, h => by
    rw [expr] at h
    obtain ⟨ys, hys, h⟩ := Lower.bind_eq_ok.mp h
    obtain ⟨y, hy, h⟩ := Lower.bind_eq_ok.mp h
    cases h
    exact ⟨discreet_expr hcx hD f hy, discreet_exprs hcx hD es hys⟩
  | .block b, x, h => by
    rw [expr] at h
    obtain ⟨y, hy, h⟩ := Lower.bind_eq_ok.mp h
    cases h
    exact discreet_block hcx hD b hy
  | .cond e yes no, x, h => by
    rw [expr] at h
    obtain ⟨c, hc, h⟩ := Lower.bind_eq_ok.mp h
    obtain ⟨y, hy, h⟩ := Lower.bind_eq_ok.mp h
    obtain ⟨z, hz, h⟩ := Lower.bind_eq_ok.mp h
    cases h
    exact ⟨discreet_expr hcx hD e hc, discreet_block hcx hD yes hy, discreet_option hcx hD no hz⟩
  | .loop e b, x, h => by
    rw [expr] at h
    obtain ⟨c, hc, h⟩ := Lower.bind_eq_ok.mp h
    obtain ⟨y, hy, h⟩ := Lower.bind_eq_ok.mp h
    cases h
    exact ⟨discreet_expr hcx hD e hc, discreet_block hcx hD b hy⟩
  | .closure c, x, h => by
    rw [expr] at h
    obtain ⟨name, hname, h⟩ := Lower.bind_eq_ok.mp h
    obtain ⟨b, hb, h⟩ := Lower.bind_eq_ok.mp h
    obtain ⟨env, henv, h⟩ := Lower.bind_eq_ok.mp h
    cases h
    exact discreet_operand hcx hD (Lower.orInconsistent_eq_ok.mp hb)
      (Lower.orInconsistent_eq_ok.mp hname) henv

/-- Optional expressions are lowered to discreet ones. -/
theorem discreet_option (hcx : ∀ d, cx.envParam = some d → may) (hD : r.Spares D) :
    ∀ (e : Option Bound.Expr) {x}, r.option cx e = .ok x → optionDiscreet D may x
  | none, x, h => by
    rw [Scheme.option] at h
    cases h
    exact trivial
  | some e, x, h => by
    rw [Scheme.option] at h
    obtain ⟨y, hy, h⟩ := Lower.bind_eq_ok.mp h
    cases h
    exact discreet_expr hcx hD e hy

/-- Arguments are lowered to discreet ones. -/
theorem discreet_exprs (hcx : ∀ d, cx.envParam = some d → may) (hD : r.Spares D) :
    ∀ (es : List Bound.Expr) {xs}, r.exprs cx es = .ok xs → exprsDiscreet D may xs
  | [], xs, h => by
    rw [exprs] at h
    cases h
    exact trivial
  | e :: es, xs, h => by
    rw [exprs] at h
    obtain ⟨y, hy, h⟩ := Lower.bind_eq_ok.mp h
    obtain ⟨ys, hys, h⟩ := Lower.bind_eq_ok.mp h
    cases h
    exact ⟨discreet_expr hcx hD e hy, discreet_exprs hcx hD es hys⟩

/-- Blocks are lowered to discreet ones. -/
theorem discreet_block (hcx : ∀ d, cx.envParam = some d → may) (hD : r.Spares D) :
    ∀ (b : Bound.Block) {x}, r.block cx b = .ok x → x.Discreet D may
  | .mk none ss tail, x, h => by
    rw [Scheme.block] at h
    obtain ⟨entry, hentry, h⟩ := Lower.bind_eq_ok.mp h
    obtain ⟨xs, hxs, h⟩ := Lower.bind_eq_ok.mp h
    obtain ⟨y, hy, h⟩ := Lower.bind_eq_ok.mp h
    cases hentry
    cases h
    exact ⟨discreet_stmtList hcx hD ss hxs, discreet_option hcx hD tail hy⟩
  | .mk (some s) ss tail, x, h => by
    rw [Scheme.block] at h
    obtain ⟨entry, hentry, h⟩ := Lower.bind_eq_ok.mp h
    obtain ⟨xs, hxs, h⟩ := Lower.bind_eq_ok.mp h
    obtain ⟨y, hy, h⟩ := Lower.bind_eq_ok.mp h
    cases h
    exact discreet_withEntry (discreet_entry hcx hentry)
      ⟨discreet_stmtList hcx hD ss hxs, discreet_option hcx hD tail hy⟩

/-- Statements are lowered to discreet ones. -/
theorem discreet_stmt (hcx : ∀ d, cx.envParam = some d → may) (hD : r.Spares D) :
    ∀ (s : Bound.Stmt) {x}, r.stmt cx s = .ok x → x.Discreet D may
  | .bind v e, x, h | .assign (.var v) e, x, h => by
    rw [Scheme.stmt] at h
    obtain ⟨y, hy, h⟩ := Lower.bind_eq_ok.mp h
    have hvalue := discreet_expr hcx hD e hy
    exact discreet_write hcx hvalue (fun _ => by exact hvalue) h
  | .assign (.global name) e, x, h | .expr e, x, h => by
    rw [Scheme.stmt] at h
    obtain ⟨y, hy, h⟩ := Lower.bind_eq_ok.mp h
    cases h
    exact discreet_expr hcx hD e hy
  | .ret e, x, h => by
    rw [Scheme.stmt] at h
    obtain ⟨y, hy, h⟩ := Lower.bind_eq_ok.mp h
    cases h
    exact discreet_option hcx hD e hy

/-- Sequences of statements are lowered to discreet ones. -/
theorem discreet_stmtList (hcx : ∀ d, cx.envParam = some d → may) (hD : r.Spares D) :
    ∀ (ss : List Bound.Stmt) {xs}, r.stmtList cx ss = .ok xs → stmtsDiscreet D may xs
  | [], xs, h => by
    rw [stmtList] at h
    cases h
    exact trivial
  | s :: ss, xs, h => by
    rw [stmtList] at h
    obtain ⟨y, hy, h⟩ := Lower.bind_eq_ok.mp h
    obtain ⟨ys, hys, h⟩ := Lower.bind_eq_ok.mp h
    cases h
    exact ⟨discreet_stmt hcx hD s hy, discreet_stmtList hcx hD ss hys⟩

end

/-- The body of a closure is lowered to a discreet one. -/
theorem discreet_closureBody (hcx : ∀ d, cx.envParam = some d → may) (hD : r.Spares D)
    {e : Bound.Expr} {x : Block} (h : r.closureBody cx e = .ok x) : x.Discreet D may := by
  unfold closureBody at h
  split at h
  · exact discreet_block hcx hD _ h
  · obtain ⟨y, hy, h⟩ := Lower.bind_eq_ok.mp h
    cases h
    exact ⟨trivial, discreet_expr hcx hD _ hy⟩

/-! ## Units -/

/-- Whether a lambda is that of a closure which is bound to the environment of a scope. -/
def IsDirect (r : Scheme) (name : String) : Prop :=
  ∃ c b, r.synthesis.lambdaNames.find? c = some name ∧ r.plans.bindings.find? c = some b ∧
    directOf b ≠ none

end ClosureEnv.Lowered.Scheme

namespace ClosureEnv

open Lowered.Scheme (IsDirect Spares discreet_withEntry discreet_entry discreet_block discreet_expr
  discreet_closureBody function_eq_ok lambda_eq_ok)

variable {t : ScopeTree} {holds : VarId → ClosureId → Prop} {options : LowerOptions}
  {baseline : Option Baseline} {u : LoweredUnit} {a : Captures} {ps : PlanTable} {s : Synthesis}
  {xs : List Synthesis.Settlement}

/-- Names tell the closures that are bound to environments of scopes from others. -/
theorem Prepared.spares (hs : Prepared t options baseline a ps s xs) (hw : t.WellBound holds)
    (hn : t.WellNamed) : Spares ⟨t, ps, s⟩ (IsDirect ⟨t, ps, s⟩) := by
  have hlambda {c : ClosureId} {name : String} (h : s.lambdaNames.find? c = some name) :
      ∃ k, t.closures[c]? = some k ∧ name = Synthesis.lambdaOf t k := by
    rw [hs.account.lambdas] at h
    obtain ⟨k, hk, heq⟩ := List.mem_map.mp (SortedMap.mem_of_find?_ofList h)
    obtain ⟨rfl, rfl⟩ := Prod.mk.inj heq
    obtain ⟨c, hc⟩ := Array.mem_iff_getElem?.mp (Array.mem_toList_iff.mp hk)
    exact ⟨k, (hw.closure_id c k hc).symm ▸ hc, rfl⟩
  rintro c b name hb hempty hname ⟨d, b', hname', hb', hdirect⟩
  obtain ⟨k, hk, rfl⟩ := hlambda hname
  obtain ⟨k', hk', heq⟩ := hlambda hname'
  obtain rfl := Synthesis.lambdaOf_inj hw hn hk hk' heq
  cases hb.symm.trans hb'
  exact hdirect hempty

/-- A lowered unit is sheltered. -/
theorem Stages.sheltered (hs : Stages t options baseline u a ps s xs) (hw : t.WellBound holds)
    (hn : t.WellNamed) : u.Sheltered (IsDirect ⟨t, ps, s⟩) where
  functions g hg := by
    obtain ⟨f, -, hf⟩ := Lower.exists_left_of_forall₂ hs.unit.functions hg
    obtain ⟨body, entry, ps, hbody, hentry, -, rfl⟩ := function_eq_ok hf
    exact discreet_withEntry (discreet_entry nofun hentry)
      (discreet_block nofun (hs.spares hw hn) _ hbody)
  globals x hx := by
    obtain ⟨g, -, -, -, f, -, hg⟩ := Lower.exists_left_of_forall₂ (hs.unit.globals_forall₂ hw) hx
    exact discreet_expr nofun (hs.spares hw hn) _ hg
  lambdas name l hl := by
    obtain ⟨k, -, accesses, hk⟩ :=
      Lower.exists_left_of_forall₂ hs.unit.lambdas (List.mem_of_find?_eq_some hl)
    obtain ⟨b, body, entry, ps', hb, hbody, hentry, -, hname, -, hl'⟩ := lambda_eq_ok hk
    have heq : l.name = name := by simpa using List.find?_some hl
    have hcx (d : PlanId) (hd : Lowered.Scheme.directOf b = some d) : IsDirect ⟨t, ps, s⟩ name :=
      ⟨k.id, b, heq ▸ hname, hb, by rw [hd]; exact nofun⟩
    rw [hl']
    exact discreet_withEntry (discreet_entry hcx hentry)
      (discreet_closureBody hcx (hs.spares hw hn) hbody)

end ClosureEnv
