import ClosureEnv.Proofs.Layout.Again

/-!
# Lowering again

A unit that is lowered once more, with the same options and with what it has left, comes out the
same but for the number of its generation: every layout is unchanged or carried on
(`lowerUnit_again`). Synthesis makes the same environments (`Synthesis.Account.synthesize_again`),
and bodies are lowered by these and by the names of lambdas alone (`Scheme.Alike`).
-/

namespace ClosureEnv

namespace Lowered.Scheme

/-- Two schemes with the same tree and plans whose synthesis made the same environments and named
the lambdas alike. -/
structure Alike (r r' : Scheme) : Prop where
  tree : r.tree = r'.tree
  plans : r.plans = r'.plans
  envs : r.synthesis.envs = r'.synthesis.envs
  lambdaNames : r.synthesis.lambdaNames = r'.synthesis.lambdaNames

namespace Alike

variable {r r' : Scheme} (h : r.Alike r')
include h

/-- The second scheme is the first one with another account of what was done. -/
theorem exists_eq : ∃ (t : ScopeTree) (ps : PlanTable) (envs : Array EnvType)
    (names : SortedMap ClosureId String) (g g' : Nat) (report report' : Report)
    (carried carried' history history' : List NamedLayout),
    r = ⟨t, ps, ⟨g, envs, names, report, carried, history⟩⟩ ∧
      r' = ⟨t, ps, ⟨g', envs, names, report', carried', history'⟩⟩ := by
  obtain ⟨t, ps, ⟨g, envs, names, report, carried, history⟩⟩ := r
  obtain ⟨t', ps', ⟨g', envs', names', report', carried', history'⟩⟩ := r'
  obtain ⟨rfl, rfl, rfl, rfl⟩ := h
  exact ⟨_, _, _, _, _, _, _, _, _, _, _, _, rfl, rfl⟩

/-- Variables are read alike. -/
theorem read (cx : Inside) (v : VarId) : r.read cx v = r'.read cx v := by
  obtain ⟨_, _, _, _, _, _, _, _, _, _, _, _, rfl, rfl⟩ := h.exists_eq
  rfl

/-- Variables are written alike. -/
theorem write (cx : Inside) (v : VarId) (plain : VarId → String → Expr → Stmt) (value : Expr) :
    r.write cx v plain value = r'.write cx v plain value := by
  obtain ⟨_, _, _, _, _, _, _, _, _, _, _, _, rfl, rfl⟩ := h.exists_eq
  rfl

/-- Scopes are entered alike. -/
theorem entry? (cx : Inside) (s : ScopeId) (params : List VarId) :
    r.entry? cx s params = r'.entry? cx s params := by
  obtain ⟨_, _, _, _, _, _, _, _, _, _, _, _, rfl, rfl⟩ := h.exists_eq
  rfl

/-- Free variables are reached alike. -/
theorem access (cx : Inside) (c : Closure) (name : String) (v : VarId) :
    r.access cx c name v = r'.access cx c name v := by
  obtain ⟨_, _, _, _, _, _, _, _, _, _, _, _, rfl, rfl⟩ := h.exists_eq
  rfl

end Alike

mutual

/-- Expressions are lowered alike. -/
theorem expr_alike {r r' : Scheme} (h : r.Alike r') (cx : Inside) :
    ∀ e : Bound.Expr, r.expr cx e = r'.expr cx e
  | .lit _ => rfl
  | .var v => by rw [expr, expr, h.read]
  | .global _ => rfl
  | .fn _ => rfl
  | .unary _ operand => by rw [expr, expr, expr_alike h cx operand]
  | .binary _ lhs rhs => by rw [expr, expr, expr_alike h cx lhs, expr_alike h cx rhs]
  | .call callee args => by rw [expr, expr, exprs_alike h cx args, expr_alike h cx callee]
  | .block body => by rw [expr, expr, block_alike h cx body]
  | .cond test yes no => by
    rw [expr, expr, expr_alike h cx test, block_alike h cx yes, option_alike h cx no]
  | .loop test body => by rw [expr, expr, expr_alike h cx test, block_alike h cx body]
  | .closure c => by
    obtain ⟨_, _, _, _, _, _, _, _, _, _, _, _, rfl, rfl⟩ := h.exists_eq
    rfl

/-- Optional expressions are lowered alike. -/
theorem option_alike {r r' : Scheme} (h : r.Alike r') (cx : Inside) :
    ∀ e : Option Bound.Expr, r.option cx e = r'.option cx e
  | none => rfl
  | some e => by rw [option, option, expr_alike h cx e]

/-- Lists of expressions are lowered alike. -/
theorem exprs_alike {r r' : Scheme} (h : r.Alike r') (cx : Inside) :
    ∀ es : List Bound.Expr, r.exprs cx es = r'.exprs cx es
  | [] => rfl
  | e :: es => by rw [exprs, exprs, expr_alike h cx e, exprs_alike h cx es]

/-- Blocks are lowered alike. -/
theorem block_alike {r r' : Scheme} (h : r.Alike r') (cx : Inside) :
    ∀ b : Bound.Block, r.block cx b = r'.block cx b
  | .mk none stmts tail => by
    rw [block, block, stmtList_alike h cx stmts, option_alike h cx tail]
  | .mk (some s) stmts tail => by
    simp only [block, h.entry?, stmtList_alike h cx stmts, option_alike h cx tail]

/-- Statements are lowered alike. -/
theorem stmt_alike {r r' : Scheme} (h : r.Alike r') (cx : Inside) :
    ∀ s : Bound.Stmt, r.stmt cx s = r'.stmt cx s
  | .bind v value => by simp only [stmt, h.write, expr_alike h cx value]
  | .assign (.var v) value => by simp only [stmt, h.write, expr_alike h cx value]
  | .assign (.global _) value => by rw [stmt, stmt, expr_alike h cx value]
  | .expr value => by rw [stmt, stmt, expr_alike h cx value]
  | .ret value => by rw [stmt, stmt, option_alike h cx value]

/-- Lists of statements are lowered alike. -/
theorem stmtList_alike {r r' : Scheme} (h : r.Alike r') (cx : Inside) :
    ∀ ss : List Bound.Stmt, r.stmtList cx ss = r'.stmtList cx ss
  | [] => rfl
  | s :: ss => by rw [stmtList, stmtList, stmt_alike h cx s, stmtList_alike h cx ss]

end

namespace Alike

variable {r r' : Scheme} (h : r.Alike r')
include h

/-- Functions are lowered alike. -/
theorem function (f : ClosureEnv.Function) : r.function f = r'.function f := by
  unfold Scheme.function
  dsimp only
  rw [block_alike h, h.entry?]
  obtain ⟨_, _, _, _, _, _, _, _, _, _, _, _, rfl, rfl⟩ := h.exists_eq
  rfl

/-- The bodies of closures are lowered alike. -/
theorem closureBody (cx : Inside) (e : Bound.Expr) : r.closureBody cx e = r'.closureBody cx e := by
  unfold Scheme.closureBody
  split
  · exact block_alike h cx _
  · rw [expr_alike h]

/-- Closures are lowered alike. -/
theorem lambda (c : Closure) : r.lambda c = r'.lambda c := by
  unfold Scheme.lambda
  simp only [h.closureBody, h.entry?, funext (h.access _ c _)]
  obtain ⟨_, _, _, _, _, _, _, _, _, _, _, _, rfl, rfl⟩ := h.exists_eq
  rfl

/-- Globals are lowered alike. -/
theorem globals : r.globals = r'.globals := by
  unfold Scheme.globals
  simp only [expr_alike h, h.tree]

/-- Units are lowered alike, each with its own account of what was done. -/
theorem unit {u : LoweredUnit} (hu : r.unit = .ok u) : r'.unit = .ok { u with
    generation := r'.synthesis.generation
    report := r'.synthesis.report
    carried := r'.synthesis.carried
    history := r'.synthesis.history } := by
  unfold Scheme.unit at hu ⊢
  obtain ⟨functions, hfunctions, hu⟩ := Lower.bind_eq_ok.mp hu
  obtain ⟨globals, hglobals, hu⟩ := Lower.bind_eq_ok.mp hu
  obtain ⟨lambdas, hlambdas, hu⟩ := Lower.bind_eq_ok.mp hu
  cases hu
  rw [← h.tree, ← funext h.function, hfunctions, Lower.ok_bind, ← h.globals, hglobals,
    Lower.ok_bind, ← funext h.lambda, hlambdas, Lower.ok_bind, h.envs]
  rfl

end Alike

end Lowered.Scheme

open Synthesis

/-- What a unit is once it is lowered again: all is as it was, but for the number of the generation
and for the report, which says that no layout has changed. -/
structure LoweredUnit.Again (u v : LoweredUnit) : Prop where
  envs : v.envs = u.envs
  functions : v.functions = u.functions
  lambdas : v.lambdas = u.lambdas
  globals : v.globals = u.globals
  captures : v.captures = u.captures
  /-- Environments are unchanged, and what was carried on is carried on. -/
  transitions : v.report.transitions =
    u.envs.map (fun e => (e.identity.text, Transition.unchanged e.name)) ++
      u.carried.map fun e => (e.1, Transition.carried e.2.name)
  degraded : v.report.degraded = []
  nextBaseline : v.nextBaseline = { u.nextBaseline with generation := v.generation }

namespace Stages

variable {t : ScopeTree} {options : LowerOptions} {baseline : Option Baseline} {u : LoweredUnit}
  {a : Captures} {ps : PlanTable} {s : Synthesis} {xs : List Settlement}
  (h : Stages t options baseline u a ps s xs)
include h

/-- The bodies of a unit are lowered last. -/
theorem lowered (hu : lowerUnit t options baseline = .ok u) :
    Lowered.Scheme.unit ⟨t, ps, s⟩ = .ok u := by
  unfold lowerUnit at hu
  obtain ⟨⟨⟩, -, hu⟩ := Lower.bind_eq_ok.mp hu
  obtain ⟨⟨⟩, -, hu⟩ := Lower.bind_eq_ok.mp hu
  rwa [h.analyzed, Lower.ok_bind, h.planned, Lower.ok_bind, h.synthesized, Lower.ok_bind] at hu

/-- A unit whose environments and lambdas come out as they were is as it was, but for the account of
what was done. -/
theorem lowerUnit_of_synthesize (hu : lowerUnit t options baseline = .ok u) {b : Baseline}
    (hunit : b.unit = t.unit) {s' : Synthesis} (hs : synthesize t ps options (some b) = .ok s')
    (henvs : s.envs = s'.envs) (hnames : s.lambdaNames = s'.lambdaNames) :
    lowerUnit t options (some b) = .ok { u with
      generation := s'.generation
      report := s'.report
      carried := s'.carried
      history := s'.history } := by
  have hvalid : t.validate = .ok () := by
    unfold lowerUnit at hu
    obtain ⟨⟨⟩, hvalid, -⟩ := Lower.bind_eq_ok.mp hu
    exact hvalid
  have hcheck : checkBaseline t (some b) = .ok () := if_pos (beq_iff_eq.mpr hunit)
  unfold lowerUnit
  rw [hvalid, Lower.ok_bind, hcheck, Lower.ok_bind, h.analyzed, Lower.ok_bind, h.planned,
    Lower.ok_bind, hs, Lower.ok_bind]
  have halike : Lowered.Scheme.Alike ⟨t, ps, s⟩ ⟨t, ps, s'⟩ := ⟨rfl, rfl, henvs, hnames⟩
  exact halike.unit (h.lowered hu)

end Stages

end ClosureEnv
