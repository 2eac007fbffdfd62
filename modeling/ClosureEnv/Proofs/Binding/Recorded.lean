import ClosureEnv.Proofs.Binding.Logged

/-!
# Recorded closures

A closure gets its number when its literal is opened, and its parameters and its body only when
the literal is closed; in between there are placeholders in the table. The number is in a bound
expression only after that, and the body of a closure holds only later numbers, since the literals
in it are opened after it. Both hold in every state that is reached while a module is bound
(`throughout_accords`), also of a module that cannot be bound as a whole.
-/

namespace ClosureEnv

namespace Bound

mutual

/-- The closures whose literals stand in an expression, outside of other literals. -/
def Expr.literals : Expr → List ClosureId
  | .lit _ | .var _ | .global _ | .fn _ => []
  | .unary _ operand => operand.literals
  | .binary _ lhs rhs => lhs.literals ++ rhs.literals
  | .call callee args => callee.literals ++ exprsLiterals args
  | .block body => body.literals
  | .cond test yes no => test.literals ++ (yes.literals ++ optionLiterals no)
  | .loop test body => test.literals ++ body.literals
  | .closure c => [c]

/-- Those in an optional expression. -/
def optionLiterals : Option Expr → List ClosureId
  | none => []
  | some e => e.literals

/-- Those in expressions. -/
def exprsLiterals : List Expr → List ClosureId
  | [] => []
  | e :: es => e.literals ++ exprsLiterals es

/-- Those in a block. -/
def Block.literals : Block → List ClosureId
  | .mk _ ss tail => stmtsLiterals ss ++ optionLiterals tail

/-- Those in a statement. -/
def Stmt.literals : Stmt → List ClosureId
  | .bind _ value | .assign _ value | .expr value => value.literals
  | .ret value => optionLiterals value

/-- Those in statements. -/
def stmtsLiterals : List Stmt → List ClosureId
  | [] => []
  | s :: ss => s.literals ++ stmtsLiterals ss

end

end Bound

namespace Binding

open ClosureEnv.Bound

variable {b b' : State} {x : Expr}

/-! ## States that accord with a log -/

/-- The parameters and the body of a closure, as they stand. -/
def State.content? (b : State) (c : ClosureId) : Option (List VarId × Expr) :=
  b.closures[c]?.map fun k => (k.params, k.body)

/-- The parameters and the body of a closure were recorded. -/
def Recorded (log : List Event) (c : ClosureId) : Prop :=
  ∃ params body, .recorded c params body ∈ log

@[simp] theorem recorded_append {log log' : List Event} {c : ClosureId} :
    Recorded (log ++ log') c ↔ Recorded log c ∨ Recorded log' c := by
  simp only [Recorded, List.mem_append, exists_or]

@[simp] theorem not_recorded_nil {c : ClosureId} : ¬Recorded [] c :=
  nofun

@[simp] theorem not_recorded_reached {c : ClosureId} : ¬Recorded [.reached b] c := by
  simp [Recorded]

@[simp] theorem not_recorded_bound {c : ClosureId} : ¬Recorded [.bound x] c := by
  simp [Recorded]

/-- The closures of a state accord with what happened, and so does what was bound. -/
structure Accords (before : List Event) (b : State) : Prop where
  /-- A closure has the parameters and the body that were recorded. -/
  recorded : ∀ c params body, .recorded c params body ∈ before → b.content? c = some (params, body)
  /-- One of which nothing was recorded still has the placeholders. -/
  unfinished : ∀ c params body, b.content? c = some (params, body) → ¬Recorded before c →
    params = [] ∧ body = .lit .nil
  /-- In the body of a closure there are only literals of later ones, which were recorded. -/
  later : ∀ (c : Nat) params body, b.content? c = some (params, body) → ∀ d ∈ body.literals,
    c < d ∧ Recorded before d
  /-- In what was bound there are only literals of closures that were recorded. -/
  bound : ∀ x, .bound x ∈ before → ∀ d ∈ x.literals, Recorded before d

/-- The table has an entry for each number below its size. -/
theorem State.content?_isSome {c : Nat} : (b.content? c).isSome ↔ c < b.closures.size := by
  simp [State.content?]

namespace Accords

variable {before : List Event}

/-- A closure that is recorded is in the table. -/
theorem lt_size (h : Accords before b) {c : Nat} (hc : Recorded before c) :
    c < b.closures.size := by
  obtain ⟨params, body, hc⟩ := hc
  rw [← State.content?_isSome, h.recorded c params body hc, Option.isSome_some]

/-- Only the parameters and the bodies of closures matter. -/
theorem congr (h : Accords before b) (heq : ∀ c, b'.content? c = b.content? c) :
    Accords before b' where
  recorded c params body hc := (heq c).trans (h.recorded c params body hc)
  unfinished c params body hc := h.unfinished c params body (heq c ▸ hc)
  later c params body hc := h.later c params body (heq c ▸ hc)
  bound := h.bound

/-- Something else happens than that a closure is recorded. -/
theorem concat (h : Accords before b) {e : Event}
    (he : ∀ c params body, e ≠ .recorded c params body)
    (hbound : ∀ x, e = .bound x → ∀ d ∈ x.literals, Recorded before d) :
    Accords (before ++ [e]) b := by
  have hnew {c : ClosureId} (hc : Recorded before c) : Recorded (before ++ [e]) c :=
    recorded_append.mpr (.inl hc)
  refine ⟨fun c params body hc => ?_, fun c params body hc hnot => ?_,
    fun c params body hc d hd => ?_, fun y hy d hd => ?_⟩
  · refine h.recorded c params body ((List.mem_append.mp hc).resolve_right fun hc => ?_)
    exact he c params body (List.mem_singleton.mp hc).symm
  · exact h.unfinished c params body hc fun hrec => hnot (hnew hrec)
  · exact (h.later c params body hc d hd).imp id hnew
  · rcases List.mem_append.mp hy with hy | hy
    · exact hnew (h.bound y hy d hd)
    · exact hnew (hbound y (List.mem_singleton.mp hy).symm d hd)

/-- A state is reached. -/
theorem reached (h : Accords before b) (s : State) : Accords (before ++ [.reached s]) b :=
  h.concat nofun nofun

/-- An expression is bound. -/
theorem told (h : Accords before b) (hx : ∀ d ∈ x.literals, Recorded before d) :
    Accords (before ++ [.bound x]) b :=
  h.concat nofun fun y hy => by
    cases hy
    exact hx

/-- A closure is opened. -/
theorem pushed (h : Accords before b) {k : Closure} (hb : b'.closures = b.closures.push k)
    (hparams : k.params = []) (hbody : k.body = .lit .nil) : Accords before b' := by
  have hcontent (c : Nat) (r : List VarId × Expr) (hc : b'.content? c = some r) :
      b.content? c = some r ∨ r = ([], .lit .nil) := by
    rw [State.content?, hb, Array.getElem?_push] at hc
    split at hc
    · exact .inr (by simpa [hparams, hbody] using hc.symm)
    · exact .inl hc
  refine ⟨fun c params body hc => ?_, fun c params body hc hnot => ?_,
    fun c params body hc d hd => ?_, h.bound⟩
  -- what was recorded belongs to earlier closures, whose places are the same
  · have hold := h.recorded c params body hc
    have hne : c ≠ b.closures.size := (h.lt_size ⟨params, body, hc⟩).ne
    rw [State.content?, hb, Array.getElem?_push, if_neg hne]
    exact hold
  · rcases hcontent c _ hc with hc | hc
    · exact h.unfinished c params body hc hnot
    · exact Prod.mk.inj hc
  · rcases hcontent c _ hc with hc | hc
    · exact h.later c params body hc d hd
    · cases hc
      simp [Expr.literals] at hd

/-- A closure is recorded. -/
theorem record (h : Accords before b) {c : Nat} {params : List VarId} {body : Expr}
    (hc : c < b.closures.size) (hnot : ¬Recorded before c)
    (hbody : ∀ d ∈ body.literals, c < d ∧ Recorded before d) :
    Accords (before ++ [.recorded c params body]) (b.recorded c params body) := by
  have hself : (b.recorded c params body).content? c = some (params, body) := by
    rw [State.content?, State.getElem?_recorded, if_pos rfl, Array.getElem?_eq_getElem hc]
    rfl
  have hother (d : Nat) (hd : d ≠ c) : (b.recorded c params body).content? d = b.content? d := by
    simp [State.content?, State.getElem?_recorded, hd.symm]
  refine ⟨fun d ps y hd => ?_, fun d ps y hd hnd => ?_, fun d ps y hd e he => ?_,
    fun y hy d hd => ?_⟩
  · rcases List.mem_append.mp hd with hd | hd
    · rw [hother d fun heq => hnot ⟨ps, y, heq ▸ hd⟩]
      exact h.recorded d ps y hd
    · cases List.mem_singleton.mp hd
      exact hself
  · rw [recorded_append, not_or] at hnd
    rw [hother d fun heq => hnd.2 ⟨params, body, by simp [heq]⟩] at hd
    exact h.unfinished d ps y hd hnd.1
  · by_cases heq : d = c
    · cases heq
      cases hself.symm.trans hd
      exact (hbody e he).imp id fun h => recorded_append.mpr (.inl h)
    · rw [hother d heq] at hd
      exact (h.later d ps y hd e he).imp id fun h => recorded_append.mpr (.inl h)
  · exact recorded_append.mpr (.inl (h.bound y (by simpa using hy) d hd))

end Accords

namespace Logged

variable {α β : Type} {before : List Event} {n : Nat} {js : List ClosureId}

/-! ## Runs from a state that accords -/

/-- `I` holds of every state in a log, with what happened before it. -/
def Throughout (I : List Event → State → Prop) (before log : List Event) : Prop :=
  ∀ pre b post, log = pre ++ .reached b :: post → I (before ++ pre) b

/-- Logs can be joined. -/
theorem Throughout.append {I : List Event → State → Prop} {log log' : List Event}
    (h : Throughout I before log) (h' : Throughout I (before ++ log) log') :
    Throughout I before (log ++ log') := by
  intro pre b post heq
  -- the state is in the second log, or else in the first, where `mid` is what follows it there
  rcases List.append_eq_append_iff.mp heq with ⟨mid, rfl, htail⟩ | ⟨mid, rfl, htail⟩
  · rw [← List.append_assoc]
    exact h' mid b post htail
  · cases mid with
    | nil => simpa using h' [] b post htail.symm
    | cons e mid =>
      cases htail
      exact h pre b mid rfl

/-- Nothing happens. -/
theorem throughout_nil {I : List Event → State → Prop} : Throughout I before [] :=
  fun _ _ _ heq => absurd heq.symm (List.append_ne_nil_of_right_ne_nil _ (List.cons_ne_nil _ _))

/-- A state is reached. -/
theorem throughout_reached {I : List Event → State → Prop} (h : I before b) :
    Throughout I before [.reached b] := by
  intro pre s post heq
  obtain ⟨rfl, hs⟩ | ⟨rfl, hs⟩ := List.append_eq_singleton_iff.mp heq.symm
  · cases hs
    simpa using h
  · cases hs

/-- Something else happens. -/
theorem throughout_of_ne {I : List Event → State → Prop} {e : Event} (he : ∀ s, e ≠ .reached s) :
    Throughout I before [e] := by
  intro pre s post heq
  have hs : .reached s ∈ [e] := heq ▸ List.mem_append_right _ List.mem_cons_self
  exact absurd (List.mem_singleton.mp hs).symm (he s)

/-- What holds of a run from a state after which `Q` is to hold. -/
structure Runs (n : Nat) (x : Logged α) (Q : α → List Event → State → Prop) (before : List Event)
    (b : State) : Prop where
  /-- All states accord with what happened before them. -/
  throughout : Throughout Accords before (x.log b)
  /-- No closure before `n` is recorded. -/
  fresh : ∀ c, Recorded (x.log b) c → n ≤ c
  /-- The last state accords too, and is as in `Q`. -/
  ends : ∀ a b', x.run.run b = .ok (a, b') →
    Accords (before ++ x.log b) b' ∧ Q a (before ++ x.log b) b'

namespace Runs

variable {x : Logged α} {Q : α → List Event → State → Prop}

/-- Nothing is done. -/
theorem pure {a : α} (h : Accords before b) (hQ : Q a before b) :
    Runs n (Pure.pure a : Logged α) Q before b where
  throughout := throughout_nil
  fresh c hc := absurd hc not_recorded_nil
  ends a' b' hr := by
    cases run_pure_eq_ok.mp hr
    simpa [Pure.pure] using ⟨h, hQ⟩

/-- One part after the other. -/
theorem bind {f : α → Logged β} {R : β → List Event → State → Prop} (hx : Runs n x Q before b)
    (hf : ∀ a b', Accords (before ++ x.log b) b' → Q a (before ++ x.log b) b' →
      Runs n (f a) R (before ++ x.log b) b') : Runs n (x >>= f) R before b := by
  cases hrun : x.run.run b with
  | error e =>
    -- the second part does not run, and the log is that of the first
    have hlog : (x >>= f).log b = x.log b := by simp [Bind.bind, hrun]
    refine ⟨hlog ▸ hx.throughout, hlog ▸ hx.fresh, fun a b' hr => ?_⟩
    obtain ⟨_, _, h, -⟩ := run_bind_eq_ok.mp hr
    cases hrun.symm.trans h
  | ok r =>
    obtain ⟨a, b'⟩ := r
    have hlog : (x >>= f).log b = x.log b ++ (f a).log b' := by simp [Bind.bind, hrun]
    obtain ⟨ha, hq⟩ := hx.ends a b' hrun
    have hfa := hf a b' ha hq
    refine ⟨hlog ▸ hx.throughout.append hfa.throughout, fun c hc => ?_, fun d b'' hr => ?_⟩
    · rw [hlog, recorded_append] at hc
      exact hc.elim (hx.fresh c) (hfa.fresh c)
    · obtain ⟨_, _, h, hr⟩ := run_bind_eq_ok.mp hr
      cases hrun.symm.trans h
      rw [hlog, ← List.append_assoc]
      exact hfa.ends d b'' hr

/-- A primitive step. -/
theorem step {x : Bind α} (hx : ∀ a b', x.run b = .ok (a, b') →
    Accords before b' ∧ Q a (before ++ [.reached b']) b') : Runs n (step x) Q before b := by
  cases hrun : x.run b with
  | error e =>
    have hlog : (Logged.step x).log b = [] := by simp [Logged.step, hrun]
    refine ⟨hlog ▸ throughout_nil, fun c hc => absurd (hlog ▸ hc) not_recorded_nil,
      fun a b' hr => ?_⟩
    cases hrun.symm.trans hr
  | ok r =>
    obtain ⟨a, b'⟩ := r
    have hlog : (Logged.step x).log b = [.reached b'] := by simp [Logged.step, hrun]
    obtain ⟨ha, hq⟩ := hx a b' hrun
    refine ⟨hlog ▸ throughout_reached ha, fun c hc => absurd (hlog ▸ hc) not_recorded_reached,
      fun a' s hr => ?_⟩
    cases hrun.symm.trans hr
    exact hlog ▸ ⟨ha.reached b', hq⟩

/-- An expression is bound. -/
theorem told {y : Expr} {Q : Unit → List Event → State → Prop} (h : Accords before b)
    (hy : ∀ d ∈ y.literals, Recorded before d) (hQ : Q () (before ++ [.bound y]) b) :
    Runs n (tell (.bound y)) Q before b where
  throughout := throughout_of_ne nofun
  fresh c hc := absurd hc not_recorded_bound
  ends a b' hr := by
    cases run_pure_eq_ok.mp hr
    exact ⟨h.told hy, hQ⟩

/-- A closure is recorded. -/
theorem record {c : Nat} {params : List VarId} {body : Expr} {Q : Unit → List Event → State → Prop}
    (h : Accords before b) (hn : n ≤ c) (hc : c < b.closures.size) (hnot : ¬Recorded before c)
    (hbody : ∀ d ∈ body.literals, c < d ∧ Recorded before d)
    (hQ : ∀ log, Recorded log c → Q () log (b.recorded c params body)) :
    Runs n (Logged.record c params body) Q before b := by
  -- between the two events nothing accords, so they are taken together
  have hlog : (Logged.record c params body).log b =
      [.recorded c params body] ++ [.reached (b.recorded c params body)] := rfl
  have hrec : Accords (before ++ [.recorded c params body]) (b.recorded c params body) :=
    h.record hc hnot hbody
  have hself : Recorded (before ++ [.recorded c params body]) c :=
    ⟨params, body, List.mem_concat_self⟩
  have hthrough : Throughout Accords before [.recorded c params body] := throughout_of_ne nofun
  refine ⟨hlog ▸ hthrough.append (throughout_reached hrec), fun d hd => ?_, fun a b' hr => ?_⟩
  · rw [hlog, recorded_append] at hd
    obtain ⟨ps, y, hd⟩ := hd.resolve_right not_recorded_reached
    cases List.mem_singleton.mp hd
    exact hn
  · cases hr
    rw [hlog, ← List.append_assoc]
    exact ⟨hrec.reached _, hQ _ (recorded_append.mpr (.inl hself))⟩

/-- A closure stays unrecorded in a run that records only later ones. -/
theorem guard {c : Nat} (h : Runs (c + 1) x Q before b) (hn : n ≤ c) (hc : ¬Recorded before c) :
    Runs n x (fun a log b' => Q a log b' ∧ ¬Recorded log c) before b where
  throughout := h.throughout
  fresh d hd := hn.trans (Nat.le_of_succ_le (h.fresh d hd))
  ends a b' hr := by
    obtain ⟨ha, hq⟩ := h.ends a b' hr
    refine ⟨ha, hq, fun hrec => (recorded_append.mp hrec).elim hc fun hrec => ?_⟩
    exact absurd (h.fresh c hrec) (Nat.not_succ_le_self c)

end Runs

/-! ## What steps give -/

/-- If the closures `js` are recorded, so are those that `x` gives, and there are none before `n`
among them if there are none among `js`. -/
def Gives (js : List ClosureId) (x : Logged α) (ls : α → List ClosureId) : Prop :=
  ∀ n before b, Accords before b → n ≤ b.closures.size → (∀ d ∈ js, n ≤ d ∧ Recorded before d) →
    Runs n x (fun a log b' => n ≤ b'.closures.size ∧ ∀ d ∈ ls a, n ≤ d ∧ Recorded log d) before b

namespace Gives

variable {x : Logged α} {ls : α → List ClosureId}

/-- Nothing is done. -/
theorem pure {a : α} (h : ls a ⊆ js) : Gives js (Pure.pure a : Logged α) ls :=
  fun _ _ _ hb hn hjs => .pure hb ⟨hn, fun d hd => hjs d (h hd)⟩

/-- One part after the other. -/
theorem bind {f : α → Logged β} {ms : β → List ClosureId} (hx : Gives js x ls)
    (hf : ∀ a, Gives (js ++ ls a) (f a) ms) : Gives js (x >>= f) ms := by
  intro n before b hb hn hjs
  refine (hx n before b hb hn hjs).bind fun a b' hb' ⟨hn', hls⟩ =>
    hf a n _ b' hb' hn' fun d hd => ?_
  rcases List.mem_append.mp hd with hd | hd
  · exact (hjs d hd).imp id fun h => recorded_append.mpr (.inl h)
  · exact hls d hd

/-- Nothing follows where binding gives up. -/
theorem throw_bind (e : BindError) (f : α → Logged β) {ms : β → List ClosureId} :
    Gives js (Logged.step (throw e) >>= f) ms :=
  fun _ _ _ _ _ _ => Runs.bind (Q := fun _ _ _ => False)
    (.step fun _ _ hr => absurd hr run_throw_ne_ok) fun _ _ _ h => h.elim

/-- Nothing is given where binding gives up. -/
theorem throw (e : BindError) : Gives js (Logged.step (throw e) : Logged α) ls :=
  fun _ _ _ _ _ _ => .step fun _ _ hr => absurd hr run_throw_ne_ok

/-- A primitive step that leaves the parameters and the bodies of closures alone. -/
theorem step {x : Bind α} {f : State → α} {g : State → State} (hx : ∀ b, x.run b = .ok (f b, g b))
    (hg : ∀ b c, (g b).content? c = b.content? c) : Gives js (Logged.step x) fun _ => [] := by
  intro n before b hb hn _
  refine .step fun a b' hr => ?_
  cases (hx b).symm.trans hr
  refine ⟨hb.congr (hg b), ?_, nofun⟩
  have hsize : (g b).closures.size = b.closures.size :=
    eq_of_forall_lt_iff fun c => by rw [← State.content?_isSome, hg, State.content?_isSome]
  exact hsize ▸ hn

/-- An expression is bound. -/
theorem tell {y : Expr} (h : y.literals ⊆ js) : Gives js (tell (.bound y)) fun _ => y.literals := by
  intro n before b hb hn hjs
  have hy (d : Nat) (hd : d ∈ y.literals) : n ≤ d ∧ Recorded before d := hjs d (h hd)
  refine .told hb (fun d hd => (hy d hd).2) ⟨hn, fun d hd => ?_⟩
  exact (hy d hd).imp id fun h => recorded_append.mpr (.inl h)

/-- An expression is bound and given. -/
theorem give {r : Expr × List Source} (h : r.1.literals ⊆ js) :
    Gives js (give r) fun r => r.1.literals :=
  (tell h).bind fun _ => .pure (List.subset_append_right _ _)

end Gives

/-! ## Primitive steps -/

/-- Looking at the state. -/
theorem gives_get : Gives js (step get) fun _ => [] :=
  .step (fun _ => rfl) fun _ _ => rfl

/-- Opening a scope. -/
theorem gives_openScope (kind : ScopeKind) (closure : Option ClosureId) (span : Syntax.Span) :
    Gives js (step (openScope kind closure span)) fun _ => [] :=
  .step (fun _ => openScope_run kind closure span) fun _ _ => rfl

/-- Closing a scope. -/
theorem gives_closeScope : Gives js (step closeScope) fun _ => [] :=
  .step (fun _ => closeScope_run) fun _ _ => rfl

/-- Declaring a variable. -/
theorem gives_declare (name : String) (ty : Ty) (isMut isParam : Bool) (span : Syntax.Span) :
    Gives js (step (declare name ty isMut isParam span)) fun _ => [] :=
  .step (fun _ => declare_run name ty isMut isParam span) fun _ _ => rfl

/-- Storing into a variable. -/
theorem gives_store (v : VarId) (sources : List Source) :
    Gives js (step (store v sources)) fun _ => [] :=
  .step (fun _ => store_run v sources) fun _ _ => rfl

/-- Noting a sink. -/
theorem gives_drain (sink : Sink) : Gives js (step (drain sink)) fun _ => [] :=
  .step (fun _ => drain_run sink) fun _ _ => rfl

/-- Noting a use, which only adds to the free variables of a closure. -/
theorem gives_noteUse (v : VarId) : Gives js (step (noteUse v)) fun _ => [] := by
  refine .step (fun _ => noteUse_run v) fun b c => ?_
  unfold State.used
  split
  · rfl
  split
  · rw [State.content?, State.content?, State.getElem?_mentioned]
    split
    · rw [Option.map_map]
      congr 1
      funext k
      dsimp only [Function.comp]
      split <;> rfl
    · rfl
  · rfl

/-- Declaring parameters. -/
theorem gives_declareParams (params : List Syntax.Param) :
    Gives js (declareParams params) fun _ => [] := by
  refine gives_get.bind fun b => ?_
  induction params generalizing js with
  | nil => exact .pure nofun
  | cons p params ih =>
    exact (gives_declare _ _ _ _ _).bind fun _ => ih.bind fun _ => .pure nofun

/-- Finding the type of a binding. -/
theorem gives_bindingTy (stated : Option Syntax.TypeExpr) (generics : List String) (value : Expr) :
    Gives js (bindingTy stated generics value) fun _ => [] := by
  cases stated with
  | none => exact gives_get.bind fun _ => .pure nofun
  | some t => exact .pure nofun

/-- Resolving a name. -/
theorem gives_resolve (name : Syntax.Ident) :
    Gives js (resolve name) fun r => r.1.literals := by
  refine gives_get.bind fun b => ?_
  split
  · exact (gives_noteUse _).bind fun _ => .give nofun
  split
  · exact .give nofun
  split
  · exact .give nofun
  · exact .throw _

/-- Assigning a value. -/
theorem gives_assign (target : Syntax.Ident) (span : Syntax.Span) {value : Expr}
    (h : value.literals ⊆ js) (sources : List Source) :
    Gives js (assign target span value sources) Stmt.literals := by
  refine gives_get.bind fun b => ?_
  split
  · dsimp only
    split
    · exact .throw_bind _ _
    · exact (gives_noteUse _).bind fun _ => (gives_store _ _).bind fun _ =>
        (gives_drain _).bind fun _ => .pure (by simpa [Stmt.literals] using h)
  split
  · exact (gives_drain _).bind fun _ => .pure (by simpa [Stmt.literals] using h)
  · exact .throw _
  split <;> exact .throw _

/-- Closing the scope of a closure. -/
theorem gives_popClosure (sources : List Source) : Gives js (popClosure sources) fun _ => [] :=
  Gives.bind (.step (fun _ => rfl) fun _ _ => rfl) fun _ => gives_closeScope.bind fun _ =>
    gives_drain _

/-! ## Closures -/

/-- A closure that is opened is a new one, and not recorded. -/
theorem runs_pushClosure (h : Accords before b) (hn : n ≤ b.closures.size) (span : Syntax.Span) :
    Runs n (pushClosure span) (fun c log b' => n ≤ c ∧ c + 1 ≤ b'.closures.size ∧ ¬Recorded log c)
      before b := by
  -- the number is read first, and the table is as it was until the closure is added to it
  refine Runs.bind (Q := fun s _ b' => s.closures = b.closures ∧ b'.closures = b.closures)
    (.step fun _ _ hr => ?_) fun s b₁ h₁ ⟨hs, hb₁⟩ => ?_
  · cases hr
    exact ⟨h, rfl, rfl⟩
  refine Runs.bind (Q := fun _ _ b' => b'.closures = b.closures)
    (.step fun _ _ hr => ?_) fun _ b₂ h₂ hb₂ => ?_
  · cases hr
    exact ⟨h₁.congr fun c => by simp [State.content?, hs, hb₁], hs⟩
  refine Runs.bind (Q := fun _ _ b' => b'.closures = b.closures)
    (.step fun _ _ hr => ?_) fun scope b₃ h₃ hb₃ => ?_
  · cases (openScope_run _ _ _).symm.trans hr
    exact ⟨h₂.congr fun _ => rfl, hb₂⟩
  have hsize : s.closures.size = b₃.closures.size := by rw [hs, hb₃]
  refine Runs.bind (Q := fun _ log b' => n ≤ s.closures.size ∧
    s.closures.size + 1 ≤ b'.closures.size ∧ ¬Recorded log s.closures.size)
    (.step fun _ _ hr => ?_) fun _ b₄ h₄ hq => .pure h₄ hq
  cases hr
  refine ⟨h₃.pushed rfl rfl rfl, hs ▸ hn, by simp [hsize], fun hrec => ?_⟩
  have hlt := h₃.lt_size ((recorded_append.mp hrec).resolve_right not_recorded_reached)
  exact hlt.ne hsize

/-- A closure that is closed is recorded. -/
theorem runs_closeClosure {c : Nat} {body : Expr} (h : Accords before b) (hn : n ≤ c)
    (hc : c + 1 ≤ b.closures.size) (hnot : ¬Recorded before c)
    (hbody : ∀ d ∈ body.literals, c + 1 ≤ d ∧ Recorded before d) (params : List VarId)
    (sources : List Source) : Runs n (closeClosure c params body sources)
      (fun r log b' => n ≤ b'.closures.size ∧ ∀ d ∈ r.1.literals, n ≤ d ∧ Recorded log d)
      before b := by
  refine ((gives_popClosure sources (c + 1) before b h hc hbody).guard hn hnot).bind
    fun _ b₁ h₁ ⟨⟨hsize, _⟩, hnot₁⟩ => ?_
  refine Runs.bind (Q := fun _ log b' => n ≤ b'.closures.size ∧ Recorded log c)
    (.record h₁ hn hsize hnot₁ (fun d hd => ?_) fun log hself => ?_)
    fun _ b₂ h₂ ⟨hsize₂, hrec⟩ => ?_
  · exact (hbody d hd).imp id fun h => recorded_append.mpr (.inl h)
  · exact ⟨by simpa [State.recorded] using hn.trans (Nat.le_of_succ_le hsize), hself⟩
  · have hgive : Gives [c] (give (.closure c, [.closure c])) fun r => r.1.literals :=
      .give (List.Subset.refl _)
    exact hgive n _ b₂ h₂ hsize₂ fun d hd => by
      cases List.mem_singleton.mp hd
      exact ⟨hn, hrec⟩

/-- A literal gives its closure, given that its body gives what is in it. -/
theorem gives_bindClosure (params : List Syntax.Param) (span : Syntax.Span)
    {body : Logged (Expr × List Source)} (hbody : Gives [] body fun r => r.1.literals) :
    Gives js (bindClosure params span body) fun r => r.1.literals := by
  intro n before b hb hn _
  refine (runs_pushClosure hb hn span).bind fun c b₁ h₁ ⟨hc, hsize, hnot⟩ => ?_
  -- what is bound inside has later numbers, so the closure itself is not recorded there
  have hparams : Gives [] (declareParams params) fun _ => [] := gives_declareParams params
  refine ((hparams (c + 1) _ b₁ h₁ hsize nofun).guard hc hnot).bind
    fun vs b₂ h₂ ⟨⟨hsize₂, _⟩, hnot₂⟩ => ?_
  refine ((hbody (c + 1) _ b₂ h₂ hsize₂ nofun).guard hc hnot₂).bind
    fun r b₃ h₃ ⟨⟨hsize₃, hr⟩, hnot₃⟩ => ?_
  exact runs_closeClosure h₃ hc hsize₃ hnot₃ hr vs r.2

/-! ## Parts of bodies -/

mutual

/-- Binding an expression. -/
theorem gives_bindExpr : ∀ (e : Syntax.Expr) {js : List ClosureId},
    Gives js (bindExpr e) fun r => r.1.literals
  | .lit value _, _ => .give nofun
  | .var name, _ => gives_resolve name
  | .paren inner _, _ => gives_bindExpr inner
  | .unary op operand _, _ => (gives_bindExpr operand).bind fun _ => .give (by simp [Expr.literals])
  | .binary op lhs rhs _, _ => (gives_bindExpr lhs).bind fun _ => (gives_bindExpr rhs).bind fun _ =>
      .give (by simp [Expr.literals])
  | .call callee args _, _ => (gives_bindExpr callee).bind fun _ =>
      (gives_bindArgs args).bind fun _ => .give (by simp [Expr.literals])
  | .block body, _ => (gives_bindScoped .block body).bind fun _ => (gives_drain _).bind fun _ =>
      .give (by simp [Expr.literals])
  | .cond test yes no _, _ => (gives_bindExpr test).bind fun _ =>
      (gives_bindScoped .block yes).bind fun _ => (gives_drain _).bind fun _ =>
        (gives_bindOption no).bind fun _ => .give (by simp [Expr.literals])
  | .loop test body _, _ => (gives_bindExpr test).bind fun _ =>
      (gives_bindScoped .loop body).bind fun _ => .give (by simp [Expr.literals])
  | .closure params body span, _ => by
    -- a block that is the whole body opens no scope of its own
    by_cases hinner : ∃ inner, body = .block inner
    · obtain ⟨inner, hinner⟩ := hinner
      rw [hinner, bindExpr]
      exact gives_bindClosure params span ((gives_bindInner body hinner).bind fun _ =>
        .pure (by simp [Expr.literals]))
    · rw [bindExpr_closure fun inner heq => hinner ⟨inner, heq⟩]
      exact gives_bindClosure params span (gives_bindExpr body)

/-- Binding the contents of a block that is the body of a closure. -/
theorem gives_bindInner : ∀ (e : Syntax.Expr) {inner : Syntax.Block}, e = .block inner →
    ∀ {js : List ClosureId}, Gives js (bindBlock none inner) fun r => r.1.literals
  | .block body, _, he, _ => by
    cases he
    exact gives_bindBlock none body
  | .lit .., _, he, _ | .var .., _, he, _ | .unary .., _, he, _ | .call .., _, he, _
  | .binary .., _, he, _ | .paren .., _, he, _ | .cond .., _, he, _ | .loop .., _, he, _
  | .closure .., _, he, _ => nomatch he

/-- Binding an optional expression. -/
theorem gives_bindOption : ∀ (e : Option Syntax.Expr) {js : List ClosureId},
    Gives js (bindOption e) fun r => optionLiterals r.1
  | none, _ => .pure nofun
  | some e, _ => (gives_bindExpr e).bind fun _ => .pure (by simp [optionLiterals])

/-- Binding the arguments of a call. -/
theorem gives_bindArgs : ∀ (es : List Syntax.Expr) {js : List ClosureId},
    Gives js (bindArgs es) exprsLiterals
  | [], _ => .pure nofun
  | e :: es, _ => (gives_bindExpr e).bind fun _ => (gives_drain _).bind fun _ =>
      (gives_bindArgs es).bind fun _ => .pure (by simp [exprsLiterals])

/-- Binding a block that opens a scope. -/
theorem gives_bindScoped (kind : ScopeKind) : ∀ (body : Syntax.Block) {js : List ClosureId},
    Gives js (bindScoped kind body) fun r => r.1.literals
  | .mk stmts tail span, _ => (gives_openScope kind none span).bind fun _ =>
      (gives_bindStmts stmts).bind fun _ => (gives_bindOption tail).bind fun _ =>
        gives_closeScope.bind fun _ => .pure (by simp [Block.literals])

/-- Binding the contents of a block. -/
theorem gives_bindBlock (scope : Option ScopeId) : ∀ (body : Syntax.Block) {js : List ClosureId},
    Gives js (bindBlock scope body) fun r => r.1.literals
  | .mk stmts tail _, _ => (gives_bindStmts stmts).bind fun _ =>
      (gives_bindOption tail).bind fun _ =>
        (Gives.tell (by simp [Expr.literals, Block.literals])).bind fun _ =>
          .pure (List.subset_append_right _ _)

/-- Binding statements. -/
theorem gives_bindStmts : ∀ (ss : List Syntax.Stmt) {js : List ClosureId},
    Gives js (bindStmts ss) stmtsLiterals
  | [], _ => .pure nofun
  | s :: ss, _ => (gives_bindStmt s).bind fun _ => (gives_bindStmts ss).bind fun _ =>
      .pure (by simp [stmtsLiterals])

/-- Binding a statement. -/
theorem gives_bindStmt : ∀ (s : Syntax.Stmt) {js : List ClosureId},
    Gives js (bindStmt s) Stmt.literals
  | .bind isMut name stated value span, _ => (gives_bindExpr value).bind fun _ =>
      gives_get.bind fun _ => (gives_bindingTy _ _ _).bind fun _ =>
        (gives_declare _ _ _ _ _).bind fun _ => (gives_store _ _).bind fun _ =>
          .pure (by simp [Stmt.literals])
  | .assign target value span, _ => (gives_bindExpr value).bind fun r =>
      gives_assign target span (by simp) r.2
  | .expr value _, _ => (gives_bindExpr value).bind fun _ => .pure (by simp [Stmt.literals])
  | .ret none _, _ => .pure nofun
  | .ret (some value) _, _ => (gives_bindExpr value).bind fun _ => (gives_drain _).bind fun _ =>
      .pure (by simp [Stmt.literals, optionLiterals])

end

/-! ## Items -/

/-- Starting a function. -/
theorem gives_openFn (name : String) (generics : List String) (span : Syntax.Span)
    (isSynthetic : Bool) : Gives js (openFn name generics span isSynthetic) fun _ => [] :=
  Gives.bind (.step (fun _ => rfl) fun _ _ => rfl) fun _ => (gives_openScope _ _ _).bind fun _ =>
    .step (fun _ => rfl) fun _ _ => rfl

/-- Ending a function. -/
theorem gives_closeFn (params : List VarId) (ret : Ty) (body : Block) :
    Gives js (closeFn params ret body) fun _ => [] :=
  gives_closeScope.bind fun _ => .step (fun _ => rfl) fun _ _ => rfl

/-- Binding a function. -/
theorem gives_bindFn (d : Syntax.FnDecl) : Gives js (bindFn d) fun _ => [] :=
  (gives_openFn _ _ _ _).bind fun _ => (gives_declareParams _).bind fun _ =>
    (gives_bindBlock none d.body).bind fun _ => (gives_drain _).bind fun _ =>
      (gives_bindingTy _ _ _).bind fun _ => gives_closeFn _ _ _

/-- Binding a global. -/
theorem gives_bindGlobal (d : Syntax.LetDecl) : Gives js (bindGlobal d) fun _ => [] :=
  (gives_bindExpr d.value).bind fun _ => (gives_drain _).bind fun _ =>
    (gives_bindingTy _ _ _).bind fun _ => .step (fun _ => rfl) fun _ _ => rfl

/-- Making the items known. -/
theorem gives_declareItems : ∀ (items : List Syntax.Item) (seen : List String)
    {js : List ClosureId}, Gives js (declareItems seen items) fun _ => []
  | [], _, _ => .pure nofun
  | item :: items, seen, _ => by
    rw [declareItems]
    dsimp only
    split
    · exact .throw_bind _ _
    · cases item <;> exact Gives.bind (.step (fun _ => rfl) fun _ _ => rfl) fun _ =>
        gives_declareItems items _

/-- Binding some functions or globals. -/
theorem gives_forM {f : α → Logged Unit}
    (hf : ∀ (a : α) {js : List ClosureId}, Gives js (f a) fun _ => []) :
    ∀ (as : List α) {js : List ClosureId}, Gives js (as.forM f) fun _ => []
  | [], _ => .pure nofun
  | a :: as, _ => (hf a).bind fun _ => gives_forM hf as

/-- Binding a module. -/
theorem gives_bindItems (m : Syntax.Module) : Gives [] (bindItems m) fun _ => [] := by
  refine (gives_declareItems _ _).bind fun _ =>
    (gives_forM (fun d _ => gives_bindFn d) _).bind fun _ => ?_
  split
  · exact .pure nofun
  · exact (gives_openFn _ _ _ _).bind fun _ =>
      (gives_forM (fun d _ => gives_bindGlobal d) _).bind fun _ => gives_closeFn _ _ _

end Logged

/-- There is nothing to accord with at first. -/
theorem accords_empty : Accords [] .empty where
  recorded := nofun
  unfinished c _ _ hc := absurd hc (by simp [State.content?, State.empty])
  later c _ _ hc := absurd hc (by simp [State.content?, State.empty])
  bound := nofun

/-- Every state that is reached while a module is bound accords with what happened before. -/
theorem throughout_accords (m : Syntax.Module) :
    Logged.Throughout Accords [] ((Logged.bindItems m).log .empty) :=
  (Logged.gives_bindItems m 0 [] .empty accords_empty (Nat.zero_le _) nofun).throughout

end Binding

end ClosureEnv
