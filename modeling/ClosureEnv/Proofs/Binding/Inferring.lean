import ClosureEnv.Proofs.Binding.Recorded
import ClosureEnv.Proofs.Binding.Source

/-!
# Inference ends

The type of a closure literal is inferred from the parameters and the body that stand under its
number, so inference jumps to a table that is still being filled. It ends all the same
(`InferenceEnds`): it goes from a number to later ones only, and reads nothing that is not recorded
yet.
-/

namespace ClosureEnv.Binding

open ClosureEnv.Bound

variable {b b' : State} {x : Expr} {ty ty' : Ty} {cs cs' : List ClosureId} {f : ClosureId → Ty}

/-! ## Inference as it goes -/

/-- Inference without a bound: the type of an expression, and the closures whose parameters and
bodies are read for it. -/
inductive Infers (b : State) : Expr → Ty → List ClosureId → Prop
  | lit (value : Syntax.Literal) : Infers b (.lit value) (.ofLiteral value) []
  | var (v : VarId) : Infers b (.var v) (b.varTy v) []
  | global (name : String) : Infers b (.global name) (b.globalTy name) []
  | fn (name : String) : Infers b (.fn name) (b.fnTy name) []
  | not (x : Expr) : Infers b (.unary .not x) .bool []
  | neg (x : Expr) : Infers b (.unary .neg x) .int []
  | joined {l : Expr} {cs : List ClosureId} (hl : Infers b l .str cs) (r : Expr) :
      Infers b (.binary .add l r) .str cs
  | added {l : Expr} {ty : Ty} {cs : List ClosureId} (hl : Infers b l ty cs) (hty : ty ≠ .str)
      (r : Expr) : Infers b (.binary .add l r) .int cs
  | arith {op : Syntax.BinaryOp} (hop : op ∈ [.sub, .mul, .div]) (l r : Expr) :
      Infers b (.binary op l r) .int []
  | test {op : Syntax.BinaryOp} (hop : op ∉ [.add, .sub, .mul, .div]) (l r : Expr) :
      Infers b (.binary op l r) .bool []
  | call {x : Expr} {ty : Ty} {cs : List ClosureId} (hx : Infers b x ty cs) (args : List Expr) :
      Infers b (.call x args) (State.resultTy ty) cs
  | unit (scope : Option ScopeId) (ss : List Stmt) : Infers b (.block (.mk scope ss none)) .unit []
  | tail {x : Expr} {ty : Ty} {cs : List ClosureId} (hx : Infers b x ty cs)
      (scope : Option ScopeId) (ss : List Stmt) : Infers b (.block (.mk scope ss (some x))) ty cs
  | cond {yes : Block} {ty : Ty} {cs : List ClosureId} (hyes : Infers b (.block yes) ty cs)
      (test : Expr) (no : Option Expr) : Infers b (.cond test yes no) ty cs
  | loop (test : Expr) (body : Block) : Infers b (.loop test body) .unit []
  | closure {c : ClosureId} {params : List VarId} {body : Expr} {ty : Ty} {cs : List ClosureId}
      (hc : b.content? c = some (params, body)) (hbody : Infers b body ty cs) :
      Infers b (.closure c) (.fn (params.map b.varTy) ty) (c :: cs)

namespace Infers

/-- Inference has one result. -/
theorem unique (h : Infers b x ty cs) (h' : Infers b x ty' cs') : ty' = ty ∧ cs' = cs := by
  -- of the four rules for operators with two operands only the first two can meet
  induction h generalizing ty' cs' with
  | joined _ _ ih =>
    cases h' with
    | joined hl => exact ih hl
    | added hl hty => exact absurd (ih hl).1 hty
    | arith hop => simp at hop
    | test hop => simp at hop
  | added _ hty _ ih =>
    cases h' with
    | joined hl => exact absurd (ih hl).1.symm hty
    | added hl => exact ⟨rfl, (ih hl).2⟩
    | arith hop => simp at hop
    | test hop => simp at hop
  | arith hop =>
    cases h' with
    | arith => exact ⟨rfl, rfl⟩
    | test hop' => exact absurd (List.mem_cons_of_mem _ hop) hop'
    | joined | added => simp at hop
  | test hop =>
    cases h' with
    | test => exact ⟨rfl, rfl⟩
    | arith hop' => exact absurd (List.mem_cons_of_mem _ hop') hop
    | joined | added => simp at hop
  | call _ _ ih =>
    cases h' with
    | call hx =>
      obtain ⟨rfl, rfl⟩ := ih hx
      exact ⟨rfl, rfl⟩
  | tail _ _ _ ih | cond _ _ _ ih =>
    cases h'
    exact ih ‹_›
  | closure hc _ ih =>
    cases h' with
    | closure hc' hbody =>
      cases hc.symm.trans hc'
      obtain ⟨rfl, rfl⟩ := ih hbody
      exact ⟨rfl, rfl⟩
  | _ =>
    cases h'
    exact ⟨rfl, rfl⟩

/-- What is read for an expression satisfies what its literals do, if that is handed down to the
literals in the bodies. -/
theorem forall_mem (h : Infers b x ty cs) {P : ClosureId → Prop}
    (hP : ∀ c params body, P c → b.content? c = some (params, body) → ∀ d ∈ body.literals, P d)
    (hx : ∀ d ∈ x.literals, P d) : ∀ c ∈ cs, P c := by
  induction h with
  | joined _ _ ih | added _ _ _ ih | call _ _ ih =>
    exact ih fun d hd => hx d (List.mem_append_left _ hd)
  | tail _ _ _ ih => exact ih fun d hd => hx d (List.mem_append_right _ hd)
  | cond _ _ _ ih => exact ih fun d hd => hx d (List.mem_append_right _ (List.mem_append_left _ hd))
  | closure hc _ ih =>
    have hPc := hx _ List.mem_cons_self
    exact List.forall_mem_cons.mpr ⟨hPc, ih (hP _ _ _ hPc hc)⟩
  | _ => exact nofun

end Infers

mutual

/-- An expression is inferred if the closures in it are. -/
theorem exists_infers : ∀ x : Expr, (∀ c ∈ x.literals, ∃ cs, Infers b (.closure c) (f c) cs) →
    ∃ cs, Infers b x (b.inferWith f x) cs
  | .lit value, _ => ⟨[], .lit value⟩
  | .var v, _ => ⟨[], .var v⟩
  | .global name, _ => ⟨[], .global name⟩
  | .fn name, _ => ⟨[], .fn name⟩
  | .unary op x, _ => by
    cases op with
    | not => exact ⟨[], .not x⟩
    | neg => exact ⟨[], .neg x⟩
  | .binary op l r, h => by
    cases op with
    | add =>
      obtain ⟨cs, hl⟩ := exists_infers l fun c hc => h c (List.mem_append_left _ hc)
      refine ⟨cs, ?_⟩
      rw [State.inferWith]
      split
      · next hstr => exact .joined (hstr ▸ hl) r
      · next hstr => exact .added hl hstr r
    | sub | mul | div => exact ⟨[], .arith (by simp) l r⟩
    | _ => exact ⟨[], .test (by simp) l r⟩
  | .call callee args, h => by
    obtain ⟨cs, hx⟩ := exists_infers callee fun c hc => h c (List.mem_append_left _ hc)
    exact ⟨cs, .call hx args⟩
  | .block body, h => exists_infers_block body h
  | .cond test yes no, h => by
    obtain ⟨cs, hyes⟩ := exists_infers_block yes fun c hc =>
      h c (List.mem_append_right _ (List.mem_append_left _ hc))
    exact ⟨cs, .cond hyes test no⟩
  | .loop test body, _ => ⟨[], .loop test body⟩
  | .closure c, h => h c List.mem_cons_self

/-- So is a block. -/
theorem exists_infers_block : ∀ body : Block,
    (∀ c ∈ body.literals, ∃ cs, Infers b (.closure c) (f c) cs) →
    ∃ cs, Infers b (.block body) (b.inferBlock f body) cs
  | .mk scope ss none, _ => ⟨[], .unit scope ss⟩
  | .mk scope ss (some x), h => by
    obtain ⟨cs, hx⟩ := exists_infers x fun c hc => h c (List.mem_append_right _ hc)
    exact ⟨cs, .tail hx scope ss⟩

end

/-- Where the bodies of closures hold only later ones, a closure is inferred within as many steps
down as there are closures from it on. -/
theorem exists_infers_closure (hlater : ∀ (c : Nat) params body,
      b.content? c = some (params, body) → ∀ d ∈ body.literals, c < d ∧ d < b.closures.size) :
    ∀ bound c : Nat, c < b.closures.size → b.closures.size ≤ c + bound →
      ∃ cs, Infers b (.closure c) (b.closureTy bound c) cs
  -- the bound gets smaller by one while the number gets larger by one at least
  | 0, c, hc, hbound => absurd hc (by omega)
  | bound + 1, c, hc, hbound => by
    have hcontent : b.content? c = some (b.closures[c].params, b.closures[c].body) := by
      simp [State.content?, Array.getElem?_eq_getElem hc]
    obtain ⟨cs, hbody⟩ := exists_infers (f := b.closureTy bound) b.closures[c].body fun d hd => by
      obtain ⟨hcd, hd⟩ := hlater c _ _ hcontent d hd
      exact exists_infers_closure hlater bound d hd (by omega)
    refine ⟨c :: cs, ?_⟩
    rw [State.closureTy, Array.getElem?_eq_getElem hc]
    exact .closure hcontent hbody

/-- There what is inferred is the result of inference without a bound. -/
theorem exists_infers_infer (hlater : ∀ (c : Nat) params body,
      b.content? c = some (params, body) → ∀ d ∈ body.literals, c < d ∧ d < b.closures.size)
    (hx : ∀ c ∈ x.literals, c < b.closures.size) : ∃ cs, Infers b x (b.infer x) cs :=
  exists_infers x fun c hc =>
    exists_infers_closure hlater _ c (hx c hc) (Nat.le_add_left _ _)

/-! ## Inference while a module is bound -/

/-- The type of what is bound is inferred in finitely many steps, from closures that are
recorded. -/
theorem Accords.infers {before : List Event} (h : Accords before b) (hx : .bound x ∈ before) :
    ∃ cs, (∀ c ∈ cs, Recorded before c) ∧
      ∀ ty reads, Infers b x ty reads ↔ ty = b.infer x ∧ reads = cs := by
  have hlater (c : Nat) (params : List VarId) (body : Expr)
      (hc : b.content? c = some (params, body)) (d : Nat) (hd : d ∈ body.literals) :
      c < d ∧ d < b.closures.size :=
    (h.later c params body hc d hd).imp id h.lt_size
  obtain ⟨cs, hcs⟩ := exists_infers_infer hlater fun c hc => h.lt_size (h.bound x hx c hc)
  refine ⟨cs, hcs.forall_mem (fun c params body _ hc d hd => (h.later c params body hc d hd).2)
    (h.bound x hx), fun ty reads => ⟨fun hr => hcs.unique hr, ?_⟩⟩
  rintro ⟨rfl, rfl⟩
  exact hcs

/-- Inference always ends while a module is bound. -/
structure InferenceEnds (m : Syntax.Module) : Prop where
  /-- The log is one of binding the module. -/
  run : (Logged.bindItems m).run = bindItems m
  /-- Every expression that is bound on the way is in the log. -/
  told : ∀ e b x sources b', (bindExpr e).run b = .ok ((x, sources), b') →
    .bound x ∈ (Logged.bindExpr e).log b
  /-- Every state that is reached accords with what happened before. -/
  accords : ∀ before b after, (Logged.bindItems m).log .empty = before ++ .reached b :: after →
    Accords before b
  /-- What is recorded of a closure is final. -/
  final : ∀ before b mid b' after, (Logged.bindItems m).log .empty =
      before ++ .reached b :: (mid ++ .reached b' :: after) →
    ∀ c, Recorded before c → b'.content? c = b.content? c
  /-- The type of what is bound is inferred in finitely many steps, in which only parameters and
  bodies are read that are recorded. -/
  infers : ∀ before b after, (Logged.bindItems m).log .empty = before ++ .reached b :: after →
    ∀ x, .bound x ∈ before → ∃ cs, (∀ c ∈ cs, Recorded before c) ∧
      ∀ ty reads, Infers b x ty reads ↔ ty = b.infer x ∧ reads = cs

/-- A closure is recorded before its literal is bound, and it holds only literals of closures that
were opened after it. So inference, which goes from a literal to the body that is recorded of it,
ends in every state that is reached while a module is bound, whether or not it can be bound as a
whole. -/
theorem inferenceEnds (m : Syntax.Module) : InferenceEnds m := by
  have haccords (before : List Event) (b : State) (after : List Event)
      (h : (Logged.bindItems m).log .empty = before ++ .reached b :: after) : Accords before b :=
    throughout_accords m before b after h
  refine {
    run := Logged.bindItems_run m
    told := fun e b x sources b' hr => ?_
    accords := haccords
    final := fun before b mid b' after h c hc => ?_
    infers := fun before b after h x hx => (haccords before b after h).infers hx }
  · rw [← Logged.bindExpr_run] at hr
    exact Logged.tells_bindExpr e b _ b' hr
  · obtain ⟨params, body, hc⟩ := hc
    have hlater : Accords (before ++ .reached b :: mid) b' :=
      haccords _ b' after (h.trans (by simp))
    rw [(haccords before b _ h).recorded c params body hc,
      hlater.recorded c params body (List.mem_append_left _ hc)]

example : ((Logged.bindItems (Syntax.nestedSource Syntax.nestedBody (.lit (.int 0) ⟨0, 0⟩))).log
    .empty).filterMap (fun
      | .recorded c _ _ => some c
      | _ => none) = [1, 0] := by
  decide +kernel

end ClosureEnv.Binding
