import ClosureEnv.Proofs.Fault.Lower
import ClosureEnv.Proofs.Order.Sorted
import ClosureEnv.Proofs.Run.Agree
import ClosureEnv.Run.Unit

/-!
# Only instances

Closures that need nothing may share the only instance of a type of environment, and instances
outlast the run that builds them. No body gets to one: what it has entered is none, no environment
has one as its parent, and a body goes to the environment of its lambda only if no closure of that
lambda is made with an empty environment (`Discreet`). So instances stay empty, however an
evaluation ends, and the calls that were counted on the way are no longer counted
(`runUnit_ended`).
-/

namespace ClosureEnv

namespace Lowered

/-! ## Discreet code -/

variable (D : String → Prop) (may : Prop)

/-- The way does not begin at the environment of the lambda, unless it may. -/
def EnvRef.Discreet (r : EnvRef) : Prop :=
  r.root = .envParam → may

/-- The environment for a closure of a lambda is reached discreetly. An empty one is not for lambdas
of which `D` holds. -/
def EnvOperand.Discreet (lambda : String) : EnvOperand → Prop
  | .ref r => r.Discreet may
  | .singleton _ | .fresh _ => ¬ D lambda

mutual

/-- An expression that does not go to the environment of its lambda, unless it may, and makes no
closure with an empty environment of a lambda of which `D` holds. -/
def Expr.Discreet : Expr → Prop
  | .lit _ | .uninit | .var .. | .global _ | .fn _ => True
  | .load place => place.env.Discreet may
  | .makeClosure lambda env => env.Discreet D may lambda
  | .unary _ operand => operand.Discreet
  | .binary _ lhs rhs => lhs.Discreet ∧ rhs.Discreet
  | .call callee args => callee.Discreet ∧ exprsDiscreet args
  | .cond test yes no => test.Discreet ∧ yes.Discreet ∧ optionDiscreet no
  | .block body => body.Discreet
  | .loop test body => test.Discreet ∧ body.Discreet

/-- An optional expression that is discreet. -/
def optionDiscreet : Option Expr → Prop
  | none => True
  | some e => e.Discreet

/-- Expressions that are discreet. -/
def exprsDiscreet : List Expr → Prop
  | [] => True
  | e :: es => e.Discreet ∧ exprsDiscreet es

/-- A block that is discreet. -/
def Block.Discreet : Block → Prop
  | .mk ss tail => stmtsDiscreet ss ∧ optionDiscreet tail

/-- A statement that is discreet. -/
def Stmt.Discreet : Stmt → Prop
  | .enter _ _ _ _ args parent => exprsDiscreet args ∧ ∀ r ∈ parent, r.Discreet may
  | .store place value => place.env.Discreet may ∧ value.Discreet
  | .bind _ _ value | .assign _ _ value | .assignGlobal _ value | .expr value => value.Discreet
  | .ret value => optionDiscreet value

/-- Statements that are discreet. -/
def stmtsDiscreet : List Stmt → Prop
  | [] => True
  | s :: ss => s.Discreet ∧ stmtsDiscreet ss

end

end Lowered

/-- A unit whose code is discreet: functions and globals have no environment to go to, and lambdas
go to theirs if `D` holds of them. -/
structure LoweredUnit.Sheltered (u : LoweredUnit) (D : String → Prop) : Prop where
  functions : ∀ f ∈ u.functions, f.body.Discreet D False
  globals : ∀ g ∈ u.globals, g.init.Discreet D False
  lambdas : ∀ name l, u.lambda? name = some l → l.body.Discreet D (D name)

namespace Run

/-- The address of the environment behind a handle. -/
def Handle.addr : Handle → Addr
  | shared a | borrowed a => a

variable {u : LoweredUnit} {D : String → Prop} {may : Prop} {m m' m'' : Machine} {α β : Type}

/-! ## Machines in order -/

/-- An address on the heap where no only instance lies. -/
structure Machine.Apart (m : Machine) (a : Addr) : Prop where
  lt : a < m.heap.size
  ne : ∀ env b, m.singletons.find? env = some b → b ≠ a

/-- A closure of a lambda of which `D` holds has no only instance as its environment. -/
def Fit (D : String → Prop) (m : Machine) (x : Val) : Prop :=
  ∀ lambda h, x = .closure lambda h → D lambda → m.Apart h.addr

/-- A later state of a machine, with as many calls going on. -/
structure Machine.Later (m m' : Machine) : Prop where
  size : m.heap.size ≤ m'.heap.size
  /-- Instances that were built in the meantime lie at new addresses. -/
  built : ∀ env b, m'.singletons.find? env = some b →
    m.singletons.find? env = some b ∨ m.heap.size ≤ b
  depth : m'.depth = m.depth

/-- The only instances of a machine are empty, and nothing else leads to them. -/
structure Machine.Orderly (u : LoweredUnit) (D : String → Prop) (m : Machine) : Prop where
  /-- An instance that was built is the empty one of its type, which has only one. -/
  built : ∀ env a, m.singletons.find? env = some a → m.heap[a]? = some ⟨env, [], none⟩ ∧
    ∃ e ∈ u.envs, e.name = env ∧ e.isSingleton = true
  sorted : m.singletons.Sorted
  slots : ∀ (a : Addr) o f x, m.heap[a]? = some o → o.slots.find? f = some x → Fit D m x
  parents : ∀ (a : Addr) o h, m.heap[a]? = some o → o.parent = some h → m.Apart h.addr
  globals : ∀ name x, m.globals.find? name = some x → Fit D m x

/-- A frame leads to no only instance, but by the environment of its lambda if that may not be
used. -/
structure Frame.Orderly (D : String → Prop) (may : Prop) (m : Machine) (f : Frame) : Prop where
  locals : ∀ v x, f.locals.find? v = some x → Fit D m x
  envs : ∀ name a, f.envs.find? name = some a → m.Apart a
  param : may → ∀ h, f.envParam = some h → m.Apart h.addr

/-- A machine in order whose frame is in order too. -/
structure Machine.Ready (u : LoweredUnit) (D : String → Prop) (may : Prop) (m : Machine) : Prop
    extends m.Orderly u D where
  frame : m.frame.Orderly D may m

namespace Machine

/-- Nothing has happened yet. -/
theorem Later.refl (m : Machine) : m.Later m :=
  ⟨Nat.le_refl _, fun _ _ => .inl, rfl⟩

/-- What is later than something later is later. -/
theorem Later.trans (h : m.Later m') (h' : m'.Later m'') : m.Later m'' where
  size := Nat.le_trans h.size h'.size
  built env b hb := (h'.built env b hb).elim (h.built env b) fun hle => .inr (Nat.le_trans h.size hle)
  depth := h'.depth.trans h.depth

/-- No only instance comes to lie at an address that is taken. -/
theorem Apart.later {a : Addr} (h : m.Apart a) (hm : m.Later m') : m'.Apart a where
  lt := Nat.lt_of_lt_of_le h.lt hm.size
  ne env b hb := (hm.built env b hb).elim (h.ne env b)
    fun hle => Nat.ne_of_gt (Nat.lt_of_lt_of_le h.lt hle)

end Machine

/-- Values stay fit. -/
theorem Fit.later {x : Val} (h : Fit D m x) (hm : m.Later m') : Fit D m' x :=
  fun lambda env hx hD => (h lambda env hx hD).later hm

/-- A value that nothing can be called by is fit. -/
theorem Fit.of_data {ε : Type} {x : Val} {y : Value ε} (h : Value.Data x y) (m : Machine) :
    Fit D m x := by
  rintro lambda env rfl
  cases h

/-- The value of nothing is fit. -/
theorem Fit.unit (m : Machine) : Fit D m .unit :=
  nofun

/-- Frames stay in order. -/
theorem Frame.Orderly.later {f : Frame} (h : f.Orderly D may m) (hm : m.Later m') :
    f.Orderly D may m' where
  locals v x hx := (h.locals v x hx).later hm
  envs name a ha := (h.envs name a ha).later hm
  param hmay env henv := (h.param hmay env henv).later hm

/-! ## Changes of a machine -/

namespace Machine

/-- What an environment that is not there does not have, only one on the heap has. -/
theorem exists_of_object {P : EnvObject → Prop} {a : Addr} (h : P (m.object a))
    (hnone : ¬ P default) : ∃ o, m.heap[a]? = some o ∧ P o := by
  unfold object at h
  cases ho : m.heap[a]? with
  | none =>
    rw [ho] at h
    exact absurd h hnone
  | some o =>
    rw [ho] at h
    exact ⟨o, rfl, h⟩

/-- A handle that can be followed leads to its address. -/
theorem addr_of_follow {env : Handle} {a : Addr} (h : m.follow env = .ok a) : env.addr = a := by
  cases env with
  | shared b =>
    cases h
    rfl
  | borrowed b =>
    rw [follow] at h
    split at h
    · exact Except.ok.inj h
    · cases h

/-- The way to an environment begins apart from only instances. -/
theorem Ready.apart_root (h : m.Ready u D may) {root : Lowered.EnvRoot}
    (hroot : root = .envParam → may) {a : Addr} (ha : m.root root = .ok a) : m.Apart a := by
  unfold Machine.root at ha
  split at ha
  · split at ha
    · next hfind =>
      cases ha
      exact h.frame.envs _ _ hfind
    · cases ha
  · split at ha
    · next env henv => exact addr_of_follow ha ▸ h.frame.param (hroot rfl) env henv
    · cases ha

/-- The parent of an environment is apart from only instances. -/
theorem Ready.apart_parentOf (h : m.Ready u D may) {a b : Addr} (hb : m.parentOf a = .ok b) :
    m.Apart b := by
  unfold parentOf at hb
  split at hb
  · next env henv =>
    obtain ⟨o, ho, hparent⟩ := exists_of_object (P := fun o => o.parent = some env) henv nofun
    exact addr_of_follow hb ▸ h.parents a o env ho hparent
  · cases hb

/-- The way to an environment ends apart from only instances. -/
theorem Ready.resolve (h : m.Ready u D may) {r : Lowered.EnvRef} (hr : r.Discreet may) {a : Addr}
    (ha : m.resolve r = .ok a) : m.Apart a := by
  unfold Machine.resolve at ha
  obtain ⟨b, hb, ha⟩ := Lower.bind_eq_ok.mp ha
  replace hb := h.apart_root hr hb
  generalize r.hops = hops at ha
  induction hops generalizing b with
  | nil =>
    cases ha
    exact hb
  | cons _ hops ih =>
    rw [List.foldlM_cons] at ha
    obtain ⟨b', hb', ha⟩ := Lower.bind_eq_ok.mp ha
    exact ih b' (h.apart_parentOf hb') ha

/-- The value of a field is fit. -/
theorem Ready.load (h : m.Ready u D may) {p : Lowered.Place} {x : Val} (hx : m.load p = .ok x) :
    Fit D m x := by
  unfold Machine.load at hx
  obtain ⟨a, -, hx⟩ := Lower.bind_eq_ok.mp hx
  dsimp only at hx
  split at hx
  · next hfind =>
    cases hx
    obtain ⟨o, ho, hslot⟩ :=
      exists_of_object (P := fun o => o.slots.find? p.field = some _) hfind nofun
    exact h.slots a o p.field _ ho hslot
  · cases hx

/-- A field of an environment apart from only instances is written. -/
theorem Ready.store (h : m.Ready u D may) {a : Addr} (ha : m.Apart a) (field : String) {x : Val}
    (hx : Fit D m x) : (m.store a field x).Ready u D may ∧ m.Later (m.store a field x) := by
  have hlater : m.Later (m.store a field x) :=
    ⟨Nat.le_of_eq (Array.size_modify ..).symm, fun _ _ => .inl, rfl⟩
  have hcases (b : Addr) (o : EnvObject) (ho : (m.store a field x).heap[b]? = some o) :
      ∃ o', m.heap[b]? = some o' ∧
        (o = o' ∨ o = { o' with slots := o'.slots.insert field x }) := by
    unfold Machine.store at ho
    dsimp only at ho
    rw [Array.getElem?_modify] at ho
    split at ho
    · obtain ⟨o', ho', rfl⟩ := Option.map_eq_some_iff.mp ho
      exact ⟨o', ho', .inr rfl⟩
    · exact ⟨o, ho, .inl rfl⟩
  refine ⟨⟨⟨fun env b hb => ?_, h.sorted, fun b o f y ho hy => ?_, fun b o env ho henv => ?_,
    fun name y hy => (h.globals name y hy).later hlater⟩, h.frame.later hlater⟩, hlater⟩
  · obtain ⟨hempty, honly⟩ := h.built env b hb
    refine ⟨?_, honly⟩
    unfold Machine.store
    dsimp only
    rw [Array.getElem?_modify, if_neg (ha.ne env b hb).symm]
    exact hempty
  · obtain ⟨o', ho', rfl | rfl⟩ := hcases b o ho
    · exact (h.slots b o f y ho' hy).later hlater
    · dsimp only at hy
      rw [SortedMap.find?_insert] at hy
      split at hy
      · cases hy
        exact hx.later hlater
      · exact (h.slots b o' f y ho' hy).later hlater
  · obtain ⟨o', ho', rfl | rfl⟩ := hcases b o ho
    · exact (h.parents b o env ho' henv).later hlater
    · exact (h.parents b o' env ho' henv).later hlater

/-- One more environment on the heap. -/
theorem Ready.allocate (h : m.Ready u D may) {o : EnvObject}
    (hslots : ∀ f x, o.slots.find? f = some x → Fit D m x)
    (hparent : ∀ env, o.parent = some env → m.Apart env.addr) :
    (m.allocate o).2.Ready u D may ∧ m.Later (m.allocate o).2 ∧
      (m.allocate o).2.Apart m.heap.size := by
  have hbuilt (env : String) (b : Addr) (hb : m.singletons.find? env = some b) :
      b < m.heap.size :=
    (Array.getElem?_eq_some_iff.mp (h.built env b hb).1).1
  have hlater : m.Later (m.allocate o).2 :=
    ⟨by simp [Machine.allocate], fun _ _ => .inl, rfl⟩
  have hcases (b : Addr) (o' : EnvObject) (ho : (m.allocate o).2.heap[b]? = some o') :
      o' = o ∨ m.heap[b]? = some o' := by
    unfold Machine.allocate at ho
    dsimp only at ho
    rw [Array.getElem?_push] at ho
    split at ho
    · exact .inl (Option.some.inj ho).symm
    · exact .inr ho
  refine ⟨⟨⟨fun env b hb => ?_, h.sorted, fun b o' f y ho hy => ?_, fun b o' env ho henv => ?_,
    fun name y hy => (h.globals name y hy).later hlater⟩, h.frame.later hlater⟩, hlater,
    ⟨by simp [Machine.allocate], fun env b hb => Nat.ne_of_lt (hbuilt env b hb)⟩⟩
  · obtain ⟨hempty, honly⟩ := h.built env b hb
    refine ⟨?_, honly⟩
    unfold Machine.allocate
    dsimp only
    rw [Array.getElem?_push, if_neg (Nat.ne_of_lt (hbuilt env b hb))]
    exact hempty
  · rcases hcases b o' ho with rfl | ho
    · exact (hslots f y hy).later hlater
    · exact (h.slots b o' f y ho hy).later hlater
  · rcases hcases b o' ho with rfl | ho
    · exact (hparent env henv).later hlater
    · exact (h.parents b o' env ho henv).later hlater

/-- The only instance of a type is built at its first use. -/
theorem Ready.sharedInstance (h : m.Ready u D may) (env : String) :
    (m.sharedInstance u env).2.Ready u D may ∧ m.Later (m.sharedInstance u env).2 := by
  unfold Machine.sharedInstance
  split
  · exact ⟨h, .refl m⟩
  · next hnone =>
    split
    · next honly =>
      obtain ⟨e, he, hand⟩ := List.any_eq_true.mp honly
      obtain ⟨hname, hsingle⟩ := Bool.and_eq_true_iff.mp hand
      obtain ⟨hready, hlater, -⟩ := h.allocate (o := ⟨env, [], none⟩) nofun nofun
      let m₁ : Machine := { (m.allocate ⟨env, [], none⟩).2 with
        singletons := m.singletons.insert env m.heap.size }
      have hlater₁ : m.Later m₁ := by
        refine ⟨hlater.size, fun name b hb => ?_, rfl⟩
        change (m.singletons.insert env m.heap.size).find? name = some b at hb
        rw [SortedMap.find?_insert] at hb
        split at hb
        · exact .inr (Nat.le_of_eq (Option.some.inj hb))
        · exact .inl hb
      refine ⟨⟨⟨fun name b hb => ?_, h.sorted.insert env _, fun b o f y ho hy => ?_,
        fun b o env' ho henv => ?_, fun name y hy => (h.globals name y hy).later hlater₁⟩,
        h.frame.later hlater₁⟩, hlater₁⟩
      · dsimp only at hb
        change (m.singletons.insert env m.heap.size).find? name = some b at hb
        rw [SortedMap.find?_insert] at hb
        split at hb
        · next heq =>
          cases hb
          obtain rfl : name = env := Std.LawfulEqOrd.eq_of_compare (beq_iff_eq.mp heq)
          exact ⟨Array.getElem?_push_size, e, he, beq_iff_eq.mp hname, hsingle⟩
        · exact hready.built name b hb
      all_goals
        change (m.heap.push ⟨env, [], none⟩)[b]? = some o at ho
        rw [Array.getElem?_push] at ho
        split at ho
        · cases ho
          first | cases hy | cases henv
      · exact (h.slots b o f y ho hy).later hlater₁
      · exact (h.parents b o env' ho henv).later hlater₁
    · exact ⟨h, .refl m⟩

/-- A global is written. -/
theorem Ready.writeGlobal (h : m.Ready u D may) (name : String) {x : Val} (hx : Fit D m x) :
    Ready u D may { m with globals := m.globals.insert name x } ∧
      m.Later { m with globals := m.globals.insert name x } := by
  have hlater : m.Later { m with globals := m.globals.insert name x } :=
    ⟨Nat.le_refl _, fun _ _ => .inl, rfl⟩
  refine ⟨⟨⟨h.built, h.sorted, fun a o f y ho hy => (h.slots a o f y ho hy).later hlater,
    fun a o env ho henv => (h.parents a o env ho henv).later hlater, fun other y hy => ?_⟩,
    h.frame.later hlater⟩, hlater⟩
  dsimp only at hy
  rw [SortedMap.find?_insert] at hy
  split at hy
  · cases hy
    exact hx.later hlater
  · exact (h.globals other y hy).later hlater

/-- The frame changes. -/
theorem Ready.withFrame (h : m.Ready u D may) {may' : Prop} {f : Frame}
    (hf : f.Orderly D may' m) (callers : List Frame) :
    Ready u D may' { m with frame := f, callers } ∧ m.Later { m with frame := f, callers } := by
  have hlater : m.Later { m with frame := f, callers } := ⟨Nat.le_refl _, fun _ _ => .inl, rfl⟩
  exact ⟨⟨⟨h.built, h.sorted, fun a o f y ho hy => (h.slots a o f y ho hy).later hlater,
    fun a o env ho henv => (h.parents a o env ho henv).later hlater,
    fun name y hy => (h.globals name y hy).later hlater⟩, hf.later hlater⟩, hlater⟩

/-- How many calls are going on does not matter for where environments lie. -/
theorem Apart.withDepth {a : Addr} (h : m.Apart a) (n : Nat) :
    Apart { m with depth := n } a :=
  ⟨h.lt, h.ne⟩

/-- Nor does it for the order of a machine. -/
theorem Ready.withDepth (h : m.Ready u D may) (n : Nat) :
    Ready u D may { m with depth := n } := by
  have hfit {x : Val} (hx : Fit D m x) : Fit D { m with depth := n } x :=
    fun lambda env heq hD => (hx lambda env heq hD).withDepth n
  exact ⟨⟨h.built, h.sorted, fun a o f x ho hx => hfit (h.slots a o f x ho hx),
    fun a o env ho henv => (h.parents a o env ho henv).withDepth n,
    fun name x hx => hfit (h.globals name x hx)⟩,
    fun v x hx => hfit (h.frame.locals v x hx),
    fun name a ha => (h.frame.envs name a ha).withDepth n,
    fun hmay env henv => (h.frame.param hmay env henv).withDepth n⟩

/-- A new environment enters the frame. -/
theorem Ready.enter (h : m.Ready u D may) (name : String) {o : EnvObject}
    (hslots : ∀ f x, o.slots.find? f = some x → Fit D m x)
    (hparent : ∀ env, o.parent = some env → m.Apart env.addr) :
    (m.enter name o).Ready u D may ∧ m.Later (m.enter name o) := by
  obtain ⟨hready, hlater, hapart⟩ := h.allocate hslots hparent
  have hframe : Frame.Orderly D may (m.allocate o).2
      { m.frame with envs := m.frame.envs.insert name m.heap.size } := by
    refine ⟨hready.frame.locals, fun other a ha => ?_, hready.frame.param⟩
    dsimp only at ha
    rw [SortedMap.find?_insert] at ha
    split at ha
    · cases ha
      exact hapart
    · exact hready.frame.envs other a ha
  obtain ⟨hready', hlater'⟩ := hready.withFrame hframe m.callers
  exact ⟨hready', hlater.trans hlater'⟩

/-- An environment leaves the frame. -/
theorem Ready.leave (h : m.Ready u D may) (name : String) :
    (m.leave name).Ready u D may ∧ m.Later (m.leave name) := by
  have hframe : Frame.Orderly D may m { m.frame with envs := m.frame.envs.erase name } := by
    refine ⟨h.frame.locals, fun other a ha => ?_, h.frame.param⟩
    dsimp only at ha
    rw [SortedMap.find?_erase] at ha
    split at ha
    · cases ha
    · exact h.frame.envs other a ha
  exact h.withFrame hframe m.callers

/-- A local variable is written. -/
theorem Ready.writeLocal (h : m.Ready u D may) (v : VarId) {x : Val} (hx : Fit D m x) :
    Ready u D may { m with frame.locals := m.frame.locals.insert v x } ∧
      m.Later { m with frame.locals := m.frame.locals.insert v x } := by
  have hframe : Frame.Orderly D may m
      { m.frame with locals := m.frame.locals.insert v x } := by
    refine ⟨fun w y hy => ?_, h.frame.envs, h.frame.param⟩
    dsimp only at hy
    rw [SortedMap.find?_insert] at hy
    split at hy
    · cases hy
      exact hx
    · exact h.frame.locals w y hy
  exact h.withFrame hframe m.callers

end Machine

end Run

end ClosureEnv
