import ClosureEnv.Proofs.Run.Instances

/-!
# Sheltered units

The code of a sheltered unit leaves a machine in order as it finds it, whether it ends with a value,
with a return, in an error or for want of fuel (`Ended`). This goes by recursion over bodies and by
induction on the fuel of calls, up to whole runs (`runUnit_ended`).
-/

namespace ClosureEnv.Run

open Lowered (exprsDiscreet optionDiscreet stmtsDiscreet)

variable {u : LoweredUnit} {D : String → Prop} {may : Prop} {m m' : Machine} {α β : Type}
  {A : Machine → α → Prop} {B : Machine → β → Prop}

/-! ## Ends -/

/-- What holds of a result goes on to hold. -/
def Stable (A : Machine → α → Prop) : Prop :=
  ∀ ⦃m m' a⦄, m.Later m' → A m a → A m' a

/-- Values stay fit. -/
theorem stable_fit : Stable (Fit D) :=
  fun _ _ _ hm hx => hx.later hm

/-- An evaluation that began in `m` has ended, with the machine in order. Of its result `A` holds,
and what it returned is fit. -/
structure Ended (u : LoweredUnit) (D : String → Prop) (may : Prop) (A : Machine → α → Prop)
    (m : Machine) (p : Except (Stop Handle) α × Machine) : Prop where
  later : m.Later p.2
  ready : p.2.Ready u D may
  result : ∀ a, p.1 = .ok a → A p.2 a
  returned : ∀ x, p.1 = .error (.returned x) → Fit D p.2 x

namespace Ended

/-- The end is reached at once. -/
theorem ok (hm : m.Ready u D may) {a : α} (ha : A m a) : Ended u D may A m (.ok a, m) where
  later := .refl m
  ready := hm
  result _ h := Except.ok.inj h ▸ ha
  returned _ h := by cases h

/-- An error ends an evaluation. -/
theorem fail (hm : m.Ready u D may) (e : RunError) :
    Ended u D may A m ((Exec.fail e : Eval α) m) where
  later := .refl m
  ready := hm
  result _ h := by cases h
  returned _ h := by cases h

/-- A return ends an evaluation. -/
theorem ret (hm : m.Ready u D may) {x : Val} (hx : Fit D m x) :
    Ended u D may A m ((throw (.returned x) : Eval α) m) where
  later := .refl m
  ready := hm
  result _ h := by cases h
  returned _ h := by
    cases h
    exact hx

/-- Want of fuel ends an evaluation. -/
theorem outOfFuel (hm : m.Ready u D may) :
    Ended u D may A m ((throw .outOfFuel : Eval α) m) where
  later := .refl m
  ready := hm
  result _ h := by cases h
  returned _ h := by cases h

/-- An evaluation that began earlier has ended in the same way. -/
theorem of_later {p : Except (Stop Handle) α × Machine} (h : Ended u D may A m' p)
    (hm : m.Later m') : Ended u D may A m p :=
  ⟨hm.trans h.later, h.ready, h.result, h.returned⟩

/-- Steps, one after the other. -/
theorem bind {x : Eval α} {f : α → Eval β} (h : Ended u D may A m (x m))
    (hf : ∀ a m', m.Later m' → m'.Ready u D may → A m' a → Ended u D may B m' (f a m')) :
    Ended u D may B m ((x >>= f) m) := by
  obtain ⟨hlater, hready, hresult, hreturned⟩ := h
  rcases hp : x m with ⟨r, m'⟩
  rw [hp] at hlater hready hresult hreturned
  cases r with
  | ok a =>
    rw [Exec.bind_of_ok hp]
    exact (hf a m' hlater hready (hresult a rfl)).of_later hlater
  | error e =>
    rw [Exec.bind_of_error hp]
    exact ⟨hlater, hready, (fun _ h => by cases h),
      fun x hx => hreturned x (congrArg Except.error (Except.error.inj hx))⟩

/-- A body whose returns count as values. -/
theorem returning {x : Eval Val} (h : Ended u D may (Fit D) m (x m)) :
    Ended u D may (Fit D) m (Exec.returning x m) := by
  obtain ⟨hlater, hready, hresult, hreturned⟩ := h
  rw [Exec.returning_run]
  rcases hp : x m with ⟨r, m'⟩
  rw [hp] at hlater hready hresult hreturned
  rcases r with (y | e) | y
  · exact (ok hready (hreturned y rfl)).of_later hlater
  · exact (fail hready e).of_later hlater
  · exact (outOfFuel hready).of_later hlater
  · exact (ok hready (hresult y rfl)).of_later hlater

/-- A result that has to be there. -/
theorem ofExcept (hm : m.Ready u D may) {x : Except RunError α} (hx : ∀ a, x = .ok a → A m a) :
    Ended u D may A m ((Exec.ofExcept x : Eval α) m) := by
  cases x with
  | ok a => exact ok hm (hx a rfl)
  | error e => exact fail hm e

/-- The result of an operator is no closure. -/
theorem ofResult (hm : m.Ready u D may) {x : Except RunError Val} (hx : SameResult x x) :
    Ended u D may (Fit D) m (Exec.ofExcept x m) := by
  refine ofExcept hm fun a ha => ?_
  subst ha
  cases hx <;> exact nofun

/-- A branch that depends on a condition. -/
theorem branch {test yes no : Eval Val} (h : Ended u D may (Fit D) m (test m))
    (hyes : ∀ m', m'.Ready u D may → Ended u D may (Fit D) m' (yes m'))
    (hno : ∀ m', m'.Ready u D may → Ended u D may (Fit D) m' (no m')) :
    Ended u D may (Fit D) m (Exec.branch test yes no m) := by
  refine h.bind fun x m' _ hm' _ => ?_
  split
  · exact hyes m' hm'
  · exact hno m' hm'
  · exact fail hm' _

/-- A loop. -/
theorem iterate {test body : Eval Val}
    (htest : ∀ m', m'.Ready u D may → Ended u D may (Fit D) m' (test m'))
    (hbody : ∀ m', m'.Ready u D may → Ended u D may (Fit D) m' (body m')) (bound : Nat) :
    ∀ m, m.Ready u D may → Ended u D may (fun _ _ => True) m (Exec.iterate test body bound m) := by
  induction bound with
  | zero => exact fun m hm => outOfFuel hm
  | succ bound ih =>
    intro m hm
    refine (htest m hm).bind fun x m' _ hm' _ => ?_
    split
    · exact (hbody m' hm').bind fun _ m'' _ hm'' _ => ih m'' hm''
    · exact ok hm' trivial
    · exact fail hm' _

/-- An operator of two operands. -/
theorem binary {x : Val} {rhs : Eval Val} (op : Syntax.BinaryOp) (hm : m.Ready u D may)
    (hx : Fit D m x) (h : Ended u D may (Fit D) m (rhs m)) :
    Ended u D may (Fit D) m (Exec.binary op x rhs m) := by
  unfold Exec.binary
  cases decisive? op with
  | none => exact h.bind fun y m' _ hm' _ => ofResult hm' ((Value.Alike.refl x).binary (.refl y) op)
  | some d =>
    cases x with
    | bool b =>
      dsimp only
      split
      · exact ok hm hx
      · refine h.bind fun y m' _ hm' _ => ?_
        cases y with
        | bool b => exact ok hm' nofun
        | _ => exact fail hm' _
    | _ => exact fail hm _

/-- Something is done to the machine in the end. -/
theorem atEnd {may' : Prop} {p : Except (Stop Handle) α × Machine} (f : Machine → Machine)
    (h : Ended u D may' A m p) (hA : Stable A)
    (hf : ∀ m', m.Later m' → m'.Ready u D may' → (f m').Ready u D may ∧ m'.Later (f m')) :
    Ended u D may A m (p.1, f p.2) := by
  obtain ⟨hready, hlater⟩ := hf p.2 h.later h.ready
  exact ⟨h.later.trans hlater, hready, fun a ha => hA hlater (h.result a ha),
    fun x hx => (h.returned x hx).later hlater⟩

/-- A machine in order stays so when its frame has other fields that do not lead to environments. -/
theorem ready_aside (hm : m.Ready u D may) (entered : List String) (pending : List Val) :
    Machine.Ready u D may { m with frame.entered := entered, frame.pending := pending } ∧
      m.Later { m with frame.entered := entered, frame.pending := pending } :=
  hm.withFrame (f := { m.frame with entered, pending })
    ⟨hm.frame.locals, hm.frame.envs, hm.frame.param⟩ m.callers

/-- Values that are still to be used do not matter. -/
theorem holding {body : Eval α} (vs : List Val) (hm : m.Ready u D may) (hA : Stable A)
    (h : ∀ m', m.Later m' → m'.Ready u D may → Ended u D may A m' (body m')) :
    Ended u D may A m (holding vs body m) := by
  obtain ⟨hstart, hlater⟩ := ready_aside hm m.frame.entered (vs ++ m.frame.pending)
  exact ((h _ hlater hstart).of_later hlater).atEnd
    (fun m' => { m' with frame.pending := m.frame.pending }) hA fun m' _ hm' =>
      ready_aside hm' m'.frame.entered m.frame.pending

/-- A block. -/
theorem inBlock {body : Eval Val} (hm : m.Ready u D may)
    (h : ∀ m', m'.Ready u D may → Ended u D may (Fit D) m' (body m')) :
    Ended u D may (Fit D) m (inBlock body m) := by
  obtain ⟨hstart, hlater⟩ := ready_aside hm [] m.frame.pending
  have hleave (names : List String) (m' : Machine) (hm' : m'.Ready u D may) :
      (names.foldl Machine.leave m').Ready u D may ∧ m'.Later (names.foldl Machine.leave m') := by
    induction names generalizing m' with
    | nil => exact ⟨hm', .refl m'⟩
    | cons name names ih =>
      obtain ⟨hleft, hlater⟩ := hm'.leave name
      obtain ⟨hend, hlater'⟩ := ih _ hleft
      exact ⟨hend, hlater.trans hlater'⟩
  refine ((h _ hstart).of_later hlater).atEnd
    (fun m' => { m'.frame.entered.foldl Machine.leave m' with
      frame.entered := m.frame.entered }) stable_fit fun m' _ hm' => ?_
  obtain ⟨hleft, hlater⟩ := hleave m'.frame.entered m' hm'
  obtain ⟨hend, hlater'⟩ := ready_aside hleft m.frame.entered
    (m'.frame.entered.foldl Machine.leave m').frame.pending
  exact ⟨hend, hlater.trans hlater'⟩

/-- A body in a frame of its own. -/
theorem inFrame {may' : Prop} {frame : Frame} {body : Eval Val} (hm : m.Ready u D may)
    (hframe : frame.Orderly D may' m)
    (h : ∀ m', m'.Ready u D may' → Ended u D may' (Fit D) m' (body m')) :
    Ended u D may (Fit D) m (inFrame frame (Exec.returning body) m) := by
  obtain ⟨hstart, hlater⟩ := hm.withFrame hframe (m.frame :: m.callers)
  exact ((h _ hstart).returning.of_later hlater).atEnd
    (fun m' => { m' with frame := m.frame, callers := m.callers }) stable_fit
    fun m' hm' hready => hready.withFrame (hm.frame.later hm') m.callers

/-- Counted calls: the call is no longer counted once it has ended. -/
theorem counted {body : Eval Val} (hm : m.Ready u D may)
    (h : ∀ n, Ended u D may (Fit D) { m with depth := n } (body { m with depth := n })) :
    Ended u D may (Fit D) m (counted body m) := by
  have huncount (p : Except (Stop Handle) Val × Machine)
      (hp : Ended u D may (Fit D) { m with depth := m.depth + 1 } p) :
      Ended u D may (Fit D) m (p.1, { p.2 with depth := p.2.depth - 1 }) := by
    have hfit {x : Val} (hx : Fit D p.2 x) : Fit D { p.2 with depth := p.2.depth - 1 } x :=
      fun lambda env heq hD => (hx lambda env heq hD).withDepth _
    exact ⟨⟨hp.later.size, hp.later.built, congrArg (· - 1) hp.later.depth⟩,
      hp.ready.withDepth _, fun x hx => hfit (hp.result x hx),
      fun x hx => hfit (hp.returned x hx)⟩
  unfold Run.counted
  dsimp only
  by_cases hdepth : m.depth + 1 > maxCallDepth
  · rw [if_pos hdepth]
    exact huncount _ (fail (hm.withDepth _) _)
  · rw [if_neg hdepth]
    exact huncount _ (h _)

end Ended

/-! ## Bodies -/

/-- Calls of fit values leave a machine in order. -/
def CallEnds (D : String → Prop) (c : Context) : Prop :=
  ∀ may m x xs, m.Ready c.unit D may → Fit D m x → (∀ y ∈ xs, Fit D m y) →
    Ended c.unit D may (Fit D) m (c.call x xs m)

/-- Something is done to the machine. -/
theorem modify_ended {f : Machine → Machine} (h : (f m).Ready u D may ∧ m.Later (f m)) :
    Ended u D may (fun _ _ => True) m ((modify f : Eval Unit) m) :=
  (Ended.ok h.1 trivial).of_later h.2

/-- A local variable is read. -/
theorem readLocal_ended (hm : m.Ready u D may) (v : VarId) (name : String) :
    Ended u D may (Fit D) m (readLocal v name m) := by
  unfold readLocal
  rw [Exec.get_bind]
  cases hfind : m.frame.locals.find? v with
  | some x => exact .ok hm (hm.frame.locals v x hfind)
  | none => exact .fail hm _

/-- A local variable is written. -/
theorem writeLocal_ended (hm : m.Ready u D may) (v : VarId) {x : Val} (hx : Fit D m x) :
    Ended u D may (fun _ _ => True) m (writeLocal v x m) :=
  modify_ended (hm.writeLocal v hx)

/-- A local variable that has been declared is written. -/
theorem assignLocal_ended (hm : m.Ready u D may) (v : VarId) (name : String) {x : Val}
    (hx : Fit D m x) : Ended u D may (fun _ _ => True) m (assignLocal v name x m) := by
  unfold assignLocal
  rw [Exec.get_bind]
  split
  · exact writeLocal_ended hm v hx
  · exact .fail hm _

/-- A global is read. -/
theorem readGlobal_ended (hm : m.Ready u D may) (name : String) :
    Ended u D may (Fit D) m (readGlobal name m) := by
  unfold readGlobal
  rw [Exec.get_bind]
  cases hfind : m.globals.find? name with
  | some x => exact .ok hm (hm.globals name x hfind)
  | none => exact .fail hm _

/-- A global that has its initial value is written. -/
theorem assignGlobal_ended (hm : m.Ready u D may) (name : String) {x : Val} (hx : Fit D m x) :
    Ended u D may (fun _ _ => True) m (assignGlobal name x m) := by
  unfold assignGlobal
  rw [Exec.get_bind]
  split
  · exact modify_ended (hm.writeGlobal name hx)
  · exact .fail hm _

/-- Apart from only instances is apart from those to come. -/
theorem stable_apart : Stable Machine.Apart :=
  fun _ _ _ hm ha => ha.later hm

/-- The way to an environment ends apart from only instances. -/
theorem resolve_ended (hm : m.Ready u D may) {r : Lowered.EnvRef} (hr : r.Discreet may) :
    Ended u D may Machine.Apart m (resolve r m) := by
  unfold resolve
  rw [Exec.get_bind]
  exact .ofExcept hm fun a ha => hm.resolve hr ha

/-- A field is read. -/
theorem load_ended (hm : m.Ready u D may) (p : Lowered.Place) :
    Ended u D may (Fit D) m ((do Exec.ofExcept ((← get).load p) : Eval Val) m) := by
  rw [Exec.get_bind]
  exact .ofExcept hm fun x hx => hm.load hx

/-- A field is written. -/
theorem store_ended (hm : m.Ready u D may) {p : Lowered.Place} (hp : p.env.Discreet may) {x : Val}
    (hx : Fit D m x) : Ended u D may (fun _ _ => True) m (store p x m) := by
  unfold Run.store
  refine (Ended.holding [x] hm stable_apart fun m' _ hm' => resolve_ended hm' hp).bind
    fun a m' hlater hm' ha => ?_
  exact modify_ended (hm'.store ha p.field (hx.later hlater))

/-- The environment for a closure of a lambda is no only instance if `D` holds of the lambda. -/
theorem operand_ended (hm : m.Ready u D may) {lambda : String} {env : Lowered.EnvOperand}
    (henv : env.Discreet D may lambda) :
    Ended u D may (fun m h => Fit D m (.closure lambda h)) m (operand u env m) := by
  cases env with
  | ref r =>
    unfold operand
    refine (resolve_ended hm henv).bind fun a m' _ hm' ha => ?_
    refine (Ended.ofExcept (A := fun _ _ => True) hm' fun _ _ => trivial).bind
      fun repr m'' hlater hm'' _ => ?_
    split
    · refine .ok hm'' fun _ _ heq _ => ?_
      cases heq
      exact ha.later hlater
    · refine .ok hm'' fun _ _ heq _ => ?_
      cases heq
      exact ha.later hlater
  | singleton env =>
    have hempty (m' : Machine) (h : Handle) : Fit D m' (.closure lambda h) := fun _ _ heq hD => by
      cases heq
      exact absurd hD henv
    unfold operand
    obtain ⟨hready, hlater⟩ := hm.sharedInstance env
    have hmod : Ended u D may (fun _ _ => True) m
        ((modifyGet fun m => m.sharedInstance u env : Eval (Option Addr)) m) :=
      (Ended.ok hready trivial).of_later hlater
    refine hmod.bind fun a m' _ hm' _ => ?_
    split
    · exact .ok hm' (hempty _ _)
    · exact .fail hm' _
  | fresh env =>
    have hempty (m' : Machine) (h : Handle) : Fit D m' (.closure lambda h) := fun _ _ heq hD => by
      cases heq
      exact absurd hD henv
    unfold operand
    obtain ⟨hready, hlater, -⟩ := hm.allocate (o := ⟨env, [], none⟩) nofun nofun
    have hmod : Ended u D may (fun _ _ => True) m
        ((modifyGet fun m => m.allocate ⟨env, [], none⟩ : Eval Addr) m) :=
      (Ended.ok hready trivial).of_later hlater
    exact hmod.bind fun a m' _ hm' _ => .ok hm' (hempty _ _)

/-- An environment comes into existence. -/
theorem enterEnv_ended (hm : m.Ready u D may) (env name : String) {slots : List (String × Val)}
    (hslots : ∀ p ∈ slots, Fit D m p.2) {parent : Option Lowered.EnvRef}
    (hparent : ∀ r ∈ parent, r.Discreet may) :
    Ended u D may (fun _ _ => True) m (enterEnv env name slots parent m) := by
  unfold enterEnv
  have hup : Ended u D may (fun m a => ∀ b ∈ a, m.Apart b) m
      (Run.holding (slots.map Prod.snd) (parent.mapM resolve) m) := by
    refine .holding _ hm (fun m m' a hlater ha b hb => (ha b hb).later hlater) fun m' _ hm' => ?_
    cases parent with
    | none => exact .ok hm' nofun
    | some r =>
      show Ended u D may _ m' ((resolve r >>= fun a => pure (some a) : Eval (Option Addr)) m')
      refine (resolve_ended hm' (hparent r rfl)).bind fun a m'' _ hm'' ha => .ok hm'' ?_
      rintro b hb
      cases hb
      exact ha
  refine hup.bind fun a m' hlater hm' ha => modify_ended (hm'.enter name (fun f x hx => ?_) ?_)
  · exact (hslots _ (SortedMap.mem_of_find?_ofList hx)).later hlater
  · rintro h hh
    obtain ⟨b, hb, rfl⟩ := Option.map_eq_some_iff.mp hh
    exact ha b hb

/-- The fields that get an initial value are looked up. -/
theorem liveFieldNames_ended (hm : m.Ready u D may) (u' : LoweredUnit) (env : String) :
    Ended u D may (fun _ _ => True) m (liveFieldNames u' env m) := by
  unfold liveFieldNames
  cases u'.env? env with
  | some e => exact .ok hm trivial
  | none => exact .fail hm _

/-- Arguments stay fit. -/
theorem stable_all : Stable fun m (xs : List Val) => ∀ x ∈ xs, Fit D m x :=
  fun _ _ _ hm hxs x hx => (hxs x hx).later hm

/-- Initial values stay fit. -/
theorem stable_slots : Stable fun m (xs : List (String × Val)) => ∀ x ∈ xs, Fit D m x.2 :=
  fun _ _ _ hm hxs x hx => (hxs x hx).later hm

section

variable {c : Context}

mutual

/-- Discreet expressions leave a machine in order. -/
theorem expr_ended (hc : CallEnds D c) : ∀ (e : Lowered.Expr) {may m}, e.Discreet D may →
    m.Ready c.unit D may → Ended c.unit D may (Fit D) m (c.expr e m)
  | .lit l, may, m, _, hm => by
    rw [Context.expr]
    exact .ok hm (.of_data (Value.Data.ofLiteral (δ := Handle) l) m)
  | .uninit, may, m, _, hm => by
    rw [Context.expr]
    exact .fail hm _
  | .var v name, may, m, _, hm => by
    rw [Context.expr]
    exact readLocal_ended hm v name
  | .global name, may, m, _, hm => by
    rw [Context.expr]
    exact readGlobal_ended hm name
  | .fn name, may, m, _, hm => by
    rw [Context.expr]
    exact .ok hm nofun
  | .load p, may, m, _, hm => by
    rw [Context.expr]
    exact load_ended hm p
  | .unary op e, may, m, he, hm => by
    rw [Lowered.Expr.Discreet] at he
    rw [Context.expr]
    exact (expr_ended hc e he hm).bind fun x m' _ hm' _ =>
      .ofResult hm' ((Value.Alike.refl x).unary op)
  | .binary op l r, may, m, he, hm => by
    rw [Lowered.Expr.Discreet] at he
    rw [Context.expr]
    refine (expr_ended hc l he.1 hm).bind fun x m' _ hm' hx => .binary op hm' hx ?_
    exact .holding [x] hm' stable_fit fun m'' _ hm'' => expr_ended hc r he.2 hm''
  | .call f es, may, m, he, hm => by
    rw [Lowered.Expr.Discreet] at he
    rw [Context.expr]
    refine (expr_ended hc f he.1 hm).bind fun x m' _ hm' hx => ?_
    refine (Ended.holding [x] hm' stable_all fun m'' _ hm'' => exprs_ended hc es he.2 hm'').bind
      fun xs m'' hlater hm'' hxs => ?_
    exact hc may m'' x xs hm'' (hx.later hlater) hxs
  | .cond e yes no, may, m, he, hm => by
    rw [Lowered.Expr.Discreet] at he
    rw [Context.expr]
    exact .branch (expr_ended hc e he.1 hm) (fun m' hm' => block_ended hc yes he.2.1 hm')
      fun m' hm' => option_ended hc no he.2.2 hm'
  | .block b, may, m, he, hm => by
    rw [Lowered.Expr.Discreet] at he
    rw [Context.expr]
    exact block_ended hc b he hm
  | .loop e b, may, m, he, hm => by
    rw [Lowered.Expr.Discreet] at he
    rw [Context.expr]
    exact (Ended.iterate (fun m' hm' => expr_ended hc e he.1 hm')
      (fun m' hm' => block_ended hc b he.2 hm') c.turns m hm).bind
      fun _ m' _ hm' _ => .ok hm' (.unit m')
  | .makeClosure lambda env, may, m, he, hm => by
    rw [Lowered.Expr.Discreet] at he
    rw [Context.expr]
    exact (operand_ended hm he).bind fun h m' _ hm' hx => .ok hm' hx

/-- Discreet optional expressions leave a machine in order. -/
theorem option_ended (hc : CallEnds D c) : ∀ (e : Option Lowered.Expr) {may m},
    optionDiscreet D may e → m.Ready c.unit D may →
      Ended c.unit D may (Fit D) m (c.option e m)
  | none, may, m, _, hm => by
    rw [Context.option]
    exact .ok hm (.unit m)
  | some e, may, m, he, hm => by
    rw [Lowered.optionDiscreet] at he
    rw [Context.option]
    exact expr_ended hc e he hm

/-- Discreet arguments leave a machine in order. -/
theorem exprs_ended (hc : CallEnds D c) : ∀ (es : List Lowered.Expr) {may m},
    exprsDiscreet D may es → m.Ready c.unit D may →
      Ended c.unit D may (fun m xs => ∀ x ∈ xs, Fit D m x) m (c.exprs es m)
  | [], may, m, _, hm => by
    rw [Context.exprs]
    exact .ok hm nofun
  | e :: es, may, m, hes, hm => by
    rw [Lowered.exprsDiscreet] at hes
    rw [Context.exprs]
    refine (expr_ended hc e hes.1 hm).bind fun x m' _ hm' hx => ?_
    refine (Ended.holding [x] hm' stable_all fun m'' _ hm'' => exprs_ended hc es hes.2 hm'').bind
      fun xs m'' hlater hm'' hxs => .ok hm'' ?_
    exact List.forall_mem_cons.mpr ⟨hx.later hlater, hxs⟩

/-- The initial values of the fields of an environment leave a machine in order. -/
theorem slots_ended (hc : CallEnds D c) (env : String) : ∀ (fields : List String)
    (es : List Lowered.Expr) {may m}, exprsDiscreet D may es → m.Ready c.unit D may →
      Ended c.unit D may (fun m xs => ∀ x ∈ xs, Fit D m x.2) m (c.slots env fields es m)
  | [], es, may, m, _, hm => by
    rw [Context.slots]
    exact .ok hm nofun
  | field :: fields, [], may, m, _, hm => by
    rw [Context.slots]
    exact .fail hm _
  | field :: fields, e :: es, may, m, hes, hm => by
    rw [Lowered.exprsDiscreet] at hes
    by_cases he : e = .uninit
    · subst he
      rw [Context.slots]
      exact slots_ended hc env fields es hes.2 hm
    · rw [Context.slots]
      · refine (expr_ended hc e hes.1 hm).returning.bind fun x m' _ hm' hx => ?_
        refine (Ended.holding [x] hm' stable_slots fun m'' _ hm'' =>
          slots_ended hc env fields es hes.2 hm'').bind fun xs m'' hlater hm'' hxs => .ok hm'' ?_
        exact List.forall_mem_cons.mpr ⟨hx.later hlater, hxs⟩
      · exact he

/-- Discreet blocks leave a machine in order. -/
theorem block_ended (hc : CallEnds D c) : ∀ (b : Lowered.Block) {may m}, b.Discreet D may →
    m.Ready c.unit D may → Ended c.unit D may (Fit D) m (c.block b m)
  | .mk ss tail, may, m, hb, hm => by
    rw [Lowered.Block.Discreet] at hb
    rw [Context.block]
    refine .inBlock hm fun m' hm' => ?_
    exact (stmts_ended hc ss hb.1 hm').bind fun _ m'' _ hm'' _ => option_ended hc tail hb.2 hm''

/-- Discreet statements leave a machine in order. -/
theorem stmt_ended (hc : CallEnds D c) : ∀ (x : Lowered.Stmt) {may m}, x.Discreet D may →
    m.Ready c.unit D may → Ended c.unit D may (fun _ _ => True) m (c.stmt x m)
  | .enter plan env name kind args parent, may, m, hx, hm => by
    rw [Lowered.Stmt.Discreet] at hx
    rw [Context.stmt]
    refine (modify_ended (Ended.ready_aside hm (name :: m.frame.entered) m.frame.pending)).bind
      fun _ m₁ _ hm₁ _ => ?_
    refine (liveFieldNames_ended hm₁ c.unit env).bind fun fields m₂ _ hm₂ _ => ?_
    refine (slots_ended hc env fields args hx.1 hm₂).bind fun xs m₃ _ hm₃ hxs => ?_
    exact enterEnv_ended hm₃ env name hxs hx.2
  | .store place e, may, m, hx, hm => by
    rw [Lowered.Stmt.Discreet] at hx
    rw [Context.stmt]
    exact (expr_ended hc e hx.2 hm).bind fun y m' _ hm' hy => store_ended hm' hx.1 hy
  | .bind v name e, may, m, hx, hm => by
    rw [Lowered.Stmt.Discreet] at hx
    rw [Context.stmt]
    exact (expr_ended hc e hx hm).bind fun y m' _ hm' hy => writeLocal_ended hm' v hy
  | .assign v name e, may, m, hx, hm => by
    rw [Lowered.Stmt.Discreet] at hx
    rw [Context.stmt]
    exact (expr_ended hc e hx hm).bind fun y m' _ hm' hy => assignLocal_ended hm' v name hy
  | .assignGlobal name e, may, m, hx, hm => by
    rw [Lowered.Stmt.Discreet] at hx
    rw [Context.stmt]
    exact (expr_ended hc e hx hm).bind fun y m' _ hm' hy => assignGlobal_ended hm' name hy
  | .expr e, may, m, hx, hm => by
    rw [Lowered.Stmt.Discreet] at hx
    rw [Context.stmt]
    exact (expr_ended hc e hx hm).bind fun _ m' _ hm' _ => .ok hm' trivial
  | .ret e, may, m, hx, hm => by
    rw [Lowered.Stmt.Discreet] at hx
    rw [Context.stmt]
    exact (option_ended hc e hx hm).bind fun y m' _ hm' hy => .ret hm' hy

/-- Sequences of discreet statements leave a machine in order. -/
theorem stmts_ended (hc : CallEnds D c) : ∀ (xs : List Lowered.Stmt) {may m},
    stmtsDiscreet D may xs → m.Ready c.unit D may →
      Ended c.unit D may (fun _ _ => True) m (c.stmts xs m)
  | [], may, m, _, hm => by
    rw [Context.stmts]
    exact .ok hm trivial
  | x :: xs, may, m, hxs, hm => by
    rw [Lowered.stmtsDiscreet] at hxs
    rw [Context.stmts]
    exact (stmt_ended hc x hxs.1 hm).bind fun _ m' _ hm' _ => stmts_ended hc xs hxs.2 hm'

end

/-! ## Calls -/

/-- A frame of a body on fit arguments is in order. -/
theorem orderly_start {param : Option Handle} (hparam : may → ∀ h, param = some h → m.Apart h.addr)
    (params : List Lowered.Param) {xs : List Val} (hxs : ∀ x ∈ xs, Fit D m x) :
    Frame.Orderly D may m (.start param (bindParams params xs)) where
  locals v x hx := by
    have hmem := SortedMap.mem_of_find?_ofList hx
    unfold bindParams at hmem
    obtain ⟨i, hi⟩ := List.mem_iff_getElem?.mp hmem
    obtain ⟨p, y, -, hy, heq⟩ := List.getElem?_zipWith_eq_some.mp hi
    obtain ⟨-, rfl⟩ := Prod.mk.inj heq
    exact hxs _ (List.mem_of_getElem? hy)
  envs _ _ ha := by cases ha
  param := hparam

variable (hu : c.unit.Sheltered D) (hc : CallEnds D c)

include hu hc

/-- Functions leave a machine in order. -/
theorem function_ended {f : Lowered.Function} (hf : f ∈ c.unit.functions)
    (hm : m.Ready c.unit D may) {xs : List Val} (hxs : ∀ x ∈ xs, Fit D m x) :
    Ended c.unit D may (Fit D) m (c.function f xs m) := by
  unfold Context.function
  split
  · exact .fail hm _
  · have hparam : False → ∀ h : Handle, none = some h → m.Apart h.addr := nofun
    exact .inFrame hm (orderly_start hparam f.params hxs) fun m' hm' =>
      block_ended hc f.body (hu.functions f hf) hm'

/-- Lambdas leave a machine in order: they go to their environment only if it is no only
instance. -/
theorem lambda_ended {name : String} {l : Lowered.Lambda} (hl : c.unit.lambda? name = some l)
    (hm : m.Ready c.unit D may) {h : Handle} (hh : Fit D m (.closure name h)) {xs : List Val}
    (hxs : ∀ x ∈ xs, Fit D m x) : Ended c.unit D may (Fit D) m (c.lambda l h xs m) := by
  unfold Context.lambda
  split
  · exact .fail hm _
  · have hparam (hD : D name) (h' : Handle) (heq : some h = some h') : m.Apart h'.addr :=
      Option.some.inj heq ▸ hh name h rfl hD
    exact .inFrame hm (orderly_start hparam l.params hxs) fun m' hm' =>
      block_ended hc l.body (hu.lambdas name l hl) hm'

/-- Whatever a fit value stands for leaves a machine in order. -/
theorem apply_ended (hm : m.Ready c.unit D may) {x : Val} (hx : Fit D m x) {xs : List Val}
    (hxs : ∀ y ∈ xs, Fit D m y) : Ended c.unit D may (Fit D) m (c.apply x xs m) := by
  unfold Context.apply
  cases x with
  | fn name =>
    dsimp only
    cases hf : c.unit.function? name with
    | some f => exact function_ended hu hc (List.mem_of_find?_eq_some hf) hm hxs
    | none => exact .fail hm _
  | closure name h =>
    dsimp only
    cases hl : c.unit.lambda? name with
    | some l => exact lambda_ended hu hc hl hm hx hxs
    | none => exact .fail hm _
  | _ => exact .fail hm _

end

/-- Calls leave a machine in order, however much fuel there is. -/
theorem call_ended (hu : u.Sheltered D) (fuel turns : Nat) :
    CallEnds D ⟨u, call u fuel, turns⟩ := by
  induction fuel generalizing turns with
  | zero => exact fun may m x xs hm _ _ => .outOfFuel hm
  | succ fuel ih =>
    intro may m x xs hm hx hxs
    refine Ended.counted hm fun n => ?_
    have hfit {y : Val} (hy : Fit D m y) : Fit D { m with depth := n } y :=
      fun lambda env heq hD => (hy lambda env heq hD).withDepth n
    exact apply_ended (c := ⟨u, call u fuel, fuel⟩) hu (ih fuel) (hm.withDepth n) (hfit hx)
      fun y hy => hfit (hxs y hy)

/-! ## Runs -/

/-- The globals get their initial values, and the machine is left in order. -/
theorem initGlobals_ended (hu : u.Sheltered D) (fuel : Nat) (hm : m.Ready u D may) :
    Ended u D may (fun _ _ => True) m (initGlobals u fuel m) := by
  unfold initGlobals
  have hall := hu.globals
  generalize u.globals = gs at hall
  induction gs generalizing m with
  | nil => exact .ok hm trivial
  | cons g gs ih =>
    obtain ⟨hg, hgs⟩ := List.forall_mem_cons.mp hall
    have hinit : Ended u D may (Fit D) m
        (inFrame (.start none []) (Exec.returning ((context u fuel).expr g.init)) m) :=
      .inFrame hm ⟨nofun, nofun, fun _ => nofun⟩ fun m' hm' =>
        expr_ended (c := context u fuel) (call_ended hu fuel fuel) g.init hg hm'
    rw [List.forM]
    refine Ended.bind (A := fun _ _ => True) ?_ fun _ m' _ hm' _ => ih hm' hgs
    exact hinit.bind fun x m' _ hm' hx => modify_ended (hm'.writeGlobal g.name hx)

/-- A run of a sheltered unit leaves the machine in order, however it ends. -/
theorem runUnit_ended (hu : u.Sheltered D) (fuel : Nat) (hm : m.Ready u D may) :
    Ended u D may (Fit D) m (runUnit u fuel m) := by
  unfold runUnit
  refine (initGlobals_ended hu fuel hm).bind fun _ m' _ hm' _ => ?_
  cases hmain : u.function? "main" with
  | none => exact .fail hm' _
  | some main =>
    dsimp only
    split
    · exact function_ended (c := context u fuel) hu (call_ended hu fuel fuel)
        (List.mem_of_find?_eq_some hmain) hm' nofun
    · exact .fail hm' _

end ClosureEnv.Run
