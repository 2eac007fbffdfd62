import ClosureEnv.Proofs.Bound.Opened
import ClosureEnv.Proofs.Lowered.Formed

/-!
# Entries are where scopes open

Lowered code enters the environment of a scope as often as the bound code opens the scope
(`Setting.count_expr`), as an entry stands at the head of the code of its scope and nowhere else. So
it is enough to know how often scopes are opened.
-/

namespace ClosureEnv.Lowered

/-- An entry in front of a block. -/
theorem entries_withEntry (entry : Option Stmt) (b : Block) :
    (Scheme.withEntry entry b).entries = entry.toList.flatMap Stmt.entries ++ b.entries := by
  cases entry with
  | none => rfl
  | some e =>
    cases b
    simp [Scheme.withEntry, Block.cons, Block.entries, stmtsEntries]

/-- Nothing is entered in the arguments of an entry. -/
theorem exprsEntries_of_arguments {w : Setting} {params : List VarId} {fields : List EnvField}
    {args : List Expr} (h : List.Forall₂ (w.Argument params) fields args) :
    exprsEntries args = [] := by
  induction h with
  | nil => rfl
  | cons hx _ ih =>
    rw [exprsEntries, ih]
    cases hx <;> rfl

namespace Setting

/-- The name and the scope of an environment belong to it alone. -/
structure IsHead (w : Setting) (n : String) (i : ScopeId) : Prop where
  /-- There is such an environment. -/
  exists_env : ∃ e ∈ w.envs, e.name = n ∧ w.plans.From e.plan i
  /-- The environment of another scope has another name. -/
  iff : ∀ e ∈ w.envs, ∀ j, w.plans.From e.plan j → (e.name = n ↔ j = i)

variable {w : Setting} {n : String} {i : ScopeId}

/-- What stands at the head of a scope enters the environment if the scope is that of it. -/
theorem IsHead.count_entry (h : w.IsHead n i) {heads within : Heads} {s : ScopeId}
    {params : List VarId} {entry : Option Stmt} (henters : w.Enters heads s params entry within) :
    (entry.toList.flatMap Stmt.entries).count n = [s].count i := by
  cases henters with
  | none hno =>
    obtain ⟨e, he, -, hi⟩ := h.exists_env
    have hne : s ≠ i := fun heq => hno e he (heq ▸ hi)
    simp [hne]
  | some he hs hargs =>
    have hiff := h.iff _ he _ hs
    simp only [Option.toList_some, List.flatMap_singleton, Stmt.entries,
      exprsEntries_of_arguments hargs, List.count_singleton, beq_iff_eq, hiff]

mutual

/-- An expression enters the environment as often as it opens the scope. -/
theorem IsHead.count_expr (h : w.IsHead n i) {heads : Heads} {e : Bound.Expr} {x : Expr}
    (hx : w.ExprOf heads e x) : x.entries.count n = e.opens.count i :=
  match hx with
  | .lit _ | .load _ | .var _ _ | .global _ | .fn _ | .closure _ => rfl
  | .unary _ he => (h.count_expr he :)
  | .binary _ hl hr => by
    simp only [Expr.entries, Bound.Expr.opens, List.count_append, h.count_expr hl, h.count_expr hr]
  | .call hf hes => by
    simp only [Expr.entries, Bound.Expr.opens, List.count_append, h.count_expr hf,
      h.count_exprs hes]
  | .block hb => (h.count_block hb :)
  | .cond hc hy hn => by
    simp only [Expr.entries, Bound.Expr.opens, List.count_append, h.count_expr hc, h.count_block hy,
      h.count_option hn]
  | .loop hc hb => by
    simp only [Expr.entries, Bound.Expr.opens, List.count_append, h.count_expr hc, h.count_block hb]

/-- An optional expression does. -/
theorem IsHead.count_option (h : w.IsHead n i) {heads : Heads} {e : Option Bound.Expr}
    {x : Option Expr} (hx : w.OptionOf heads e x) :
    (optionEntries x).count n = (Bound.optionOpens e).count i :=
  match hx with
  | .none => rfl
  | .some he => (h.count_expr he :)

/-- Arguments do. -/
theorem IsHead.count_exprs (h : w.IsHead n i) {heads : Heads} {es : List Bound.Expr}
    {xs : List Expr} (hx : w.ExprsOf heads es xs) :
    (exprsEntries xs).count n = (Bound.exprsOpens es).count i :=
  match hx with
  | .nil => rfl
  | .cons he hes => by
    simp only [exprsEntries, Bound.exprsOpens, List.count_append, h.count_expr he,
      h.count_exprs hes]

/-- A block does. -/
theorem IsHead.count_block (h : w.IsHead n i) {heads : Heads} {b : Bound.Block} {x : Block}
    (hx : w.BlockOf heads b x) : x.entries.count n = b.opens.count i :=
  match hx with
  | .plain hss htail => by
    simp only [Block.entries, Bound.Block.opens, List.count_append, h.count_stmts hss,
      h.count_option htail, Option.toList_none, List.count_nil, Nat.zero_add]
  | .opened henters hss htail hy => by
    subst hy
    simp only [entries_withEntry, Block.entries, Bound.Block.opens, List.count_append,
      h.count_entry henters, h.count_stmts hss, h.count_option htail, Option.toList_some]

/-- A statement does. -/
theorem IsHead.count_stmt (h : w.IsHead n i) {heads : Heads} {e : Bound.Stmt} {x : Stmt}
    (hx : w.StmtOf heads e x) : x.entries.count n = e.opens.count i :=
  match hx with
  | .bindSlot _ he | .bind _ _ he | .assignSlot _ he | .assign _ _ he | .assignGlobal _ he
  | .expr he => (h.count_expr he :)
  | .ret he => (h.count_option he :)

/-- Statements do. -/
theorem IsHead.count_stmts (h : w.IsHead n i) {heads : Heads} {es : List Bound.Stmt}
    {xs : List Stmt} (hx : w.StmtsOf heads es xs) :
    (stmtsEntries xs).count n = (Bound.stmtsOpens es).count i :=
  match hx with
  | .nil => rfl
  | .cons he hes => by
    simp only [stmtsEntries, Bound.stmtsOpens, List.count_append, h.count_stmt he,
      h.count_stmts hes]

end

/-- The body of a closure enters the environment as often as it opens the scope. -/
theorem IsHead.count_body (h : w.IsHead n i) {heads : Heads} {e : Bound.Expr} {x : Block}
    (hx : w.BodyOf heads e x) : x.entries.count n = e.opens.count i := by
  cases hx with
  | block hb => exact h.count_block hb
  | expr he =>
    rw [Block.entries, stmtsEntries, optionEntries, List.nil_append]
    exact h.count_expr he

/-- A function does. -/
theorem IsHead.count_function (h : w.IsHead n i) {f : ClosureEnv.Function} {g : Function}
    (hg : w.FunctionOf f g) : g.body.entries.count n = f.opens.count i := by
  obtain ⟨entry, heads, x, henters, hx, hbody⟩ := hg.body
  rw [hbody, entries_withEntry, List.count_append, h.count_entry henters, h.count_block hx,
    ← List.count_append]
  rfl

/-- A lambda does. -/
theorem IsHead.count_lambda (h : w.IsHead n i) {k : Closure} {l : Lambda} (hl : w.LambdaOf k l) :
    l.body.entries.count n = k.opens.count i := by
  obtain ⟨entry, heads, x, henters, hx, hbody⟩ := hl.body
  rw [hbody, entries_withEntry, List.count_append, h.count_entry henters, h.count_body hx,
    ← List.count_append]
  rfl

end Setting

/-- What is counted alike in the members of two lists is counted alike in both. -/
theorem count_flatMap {α β : Type} {R : α → β → Prop} {f : α → List ScopeId} {g : β → List String}
    {as : List α} {bs : List β} (h : List.Forall₂ R as bs) {n : String} {i : ScopeId}
    (hcount : ∀ a b, R a b → (g b).count n = (f a).count i) :
    (bs.flatMap g).count n = (as.flatMap f).count i := by
  induction h with
  | nil => rfl
  | cons hab _ ih =>
    rw [List.flatMap_cons, List.flatMap_cons, List.count_append, List.count_append, ih,
      hcount _ _ hab]

/-- Members in which nothing is counted can be left out. -/
theorem count_flatMap_filter {α : Type} {q : α → Bool} {f : α → List ScopeId} {i : ScopeId}
    {as : List α} (h : ∀ a ∈ as, q a = false → (f a).count i = 0) :
    ((as.filter q).flatMap f).count i = (as.flatMap f).count i := by
  induction as with
  | nil => rfl
  | cons a as ih =>
    have hrest := ih fun b hb => h b (List.mem_cons_of_mem _ hb)
    cases hq : q a with
    | true =>
      rw [List.filter_cons_of_pos hq, List.flatMap_cons, List.flatMap_cons, List.count_append,
        List.count_append, hrest]
    | false =>
      rw [List.filter_cons_of_neg (by simp [hq]), List.flatMap_cons, List.count_append, hrest,
        h a List.mem_cons_self hq, Nat.zero_add]

end ClosureEnv.Lowered
