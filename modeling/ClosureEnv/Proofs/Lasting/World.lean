import ClosureEnv.Proofs.Lasting.Near
import ClosureEnv.Proofs.Lowered.Sound
import ClosureEnv.Proofs.Run.Agree
import ClosureEnv.Run.Unit

/-!
# Machines beside lasting environments

A machine stands for a store when both have the same environments at the same addresses, the same
globals and the same number of calls (`World`). Values are alike when a closure of the machine keeps
the innermost of the environments that the other one keeps. `Good` is what holds of every value of a
run: its closures keep environments that hold all that they need.
-/

namespace ClosureEnv.Run.Lasting

open Lowered (Scheme Inside)

variable {t : ScopeTree} {ps : PlanTable} {holds : VarId → ClosureId → Prop} {r : Scheme}

/-! ## Environments in sight -/

/-- The heap only gets more environments and more slots. -/
def Grows (heap heap' : Array Instance) : Prop :=
  ∀ (a : Addr) i, heap[a]? = some i → ∃ i', heap'[a]? = some i' ∧ i'.plan = i.plan ∧
    i'.sight = i.sight ∧ ∀ v, (i.slots.find? v).isSome = true → (i'.slots.find? v).isSome = true

/-- The environments of some scopes are in sight, and see one another. -/
def Covers (t : ScopeTree) (ps : PlanTable) (heap : Array Instance) (inside : ScopeId → Prop)
    (σ : Sight) : Prop :=
  ∀ p o, ps.From p o → inside o → ∃ (a : Addr) (i : Instance), σ.find? p = some a ∧
    heap[a]? = some i ∧ i.plan = p ∧ SameSight t ps o σ i.sight

/-- A variable has a value in the environment in sight that holds it. -/
def IsSet (ps : PlanTable) (heap : Array Instance) (σ : Sight) (v : VarId) : Prop :=
  ∃ (p : PlanId) (a : Addr) (i : Instance), ps.varPlan.find? v = some p ∧ σ.find? p = some a ∧
    heap[a]? = some i ∧ (i.slots.find? v).isSome = true

variable {heap heap' heap'' : Array Instance} {inside : ScopeId → Prop} {σ : Sight} {v : VarId}

/-- What an environment is like once a value is written. -/
theorem getElem?_store {s : Store} {b : Addr} {i : Instance} (hi : s.heap[b]? = some i) (a : Addr)
    (v : VarId) (x : Val) : (s.store a v x).heap[b]? =
      some (if a = b then { i with slots := i.slots.insert v x } else i) := by
  unfold Store.store
  dsimp only
  rw [Array.getElem?_modify, hi]
  split <;> rfl

/-- An environment was there before a value is written. -/
theorem exists_of_store {s : Store} {a b : Addr} {v : VarId} {x : Val} {j : Instance}
    (hj : (s.store a v x).heap[b]? = some j) : ∃ i, s.heap[b]? = some i ∧
      j = if a = b then { i with slots := i.slots.insert v x } else i := by
  have hlt := (Array.getElem?_eq_some_iff.mp hj).1
  unfold Store.store at hlt
  rw [Array.size_modify] at hlt
  have hi := Array.getElem?_eq_getElem hlt
  exact ⟨_, hi, Option.some.inj (hj.symm.trans (getElem?_store hi a v x))⟩

namespace Grows

/-- A heap grows out of itself. -/
theorem refl (heap : Array Instance) : Grows heap heap :=
  fun _ i hi => ⟨i, hi, rfl, rfl, fun _ => id⟩

/-- What grows further has grown. -/
theorem trans (h : Grows heap heap') (h' : Grows heap' heap'') : Grows heap heap'' := by
  intro a i hi
  obtain ⟨j, hj, hplan, hsight, hslots⟩ := h a i hi
  obtain ⟨k, hk, hplan', hsight', hslots'⟩ := h' a j hj
  exact ⟨k, hk, hplan'.trans hplan, hsight'.trans hsight, fun v hv => hslots' v (hslots v hv)⟩

/-- One more environment. -/
theorem push (heap : Array Instance) (i : Instance) : Grows heap (heap.push i) := by
  intro a j hj
  refine ⟨j, ?_, rfl, rfl, fun _ => id⟩
  rw [Array.getElem?_push, if_neg (Nat.ne_of_lt (Array.getElem?_eq_some_iff.mp hj).1)]
  exact hj

/-- One more value. -/
theorem store (s : Store) (a : Addr) (v : VarId) (x : Val) : Grows s.heap (s.store a v x).heap := by
  intro b i hi
  rw [getElem?_store hi]
  by_cases hab : a = b
  · rw [if_pos hab]
    refine ⟨_, rfl, rfl, rfl, fun w hw => ?_⟩
    rw [SortedMap.find?_insert]
    split
    · rfl
    · exact hw
  · rw [if_neg hab]
    exact ⟨i, rfl, rfl, rfl, fun _ => id⟩

end Grows

/-- What is in sight stays in sight. -/
theorem Covers.mono (h : Covers t ps heap inside σ) (hg : Grows heap heap') :
    Covers t ps heap' inside σ := by
  intro p o hp ho
  obtain ⟨a, i, ha, hi, hip, hs⟩ := h p o hp ho
  obtain ⟨j, hj, hplan, hsight, -⟩ := hg a i hi
  exact ⟨a, j, ha, hj, hplan.trans hip, hsight ▸ hs⟩

/-- The environments of fewer scopes. -/
theorem Covers.imp {inside' : ScopeId → Prop} (h : Covers t ps heap inside σ)
    (himp : ∀ o, inside' o → inside o) : Covers t ps heap inside' σ :=
  fun p o hp ho => h p o hp (himp o ho)

/-- What has a value keeps having one. -/
theorem IsSet.mono (h : IsSet ps heap σ v) (hg : Grows heap heap') : IsSet ps heap' σ v := by
  obtain ⟨p, a, i, hv, ha, hi, hx⟩ := h
  obtain ⟨j, hj, -, -, hslots⟩ := hg a i hi
  exact ⟨p, a, j, hv, ha, hj, hslots v hx⟩

/-! ## Values -/

/-- What holds of a value: a function is there, and a closure, of which `P` holds, keeps the
environments around it, in which all that it needs has a value. -/
structure Good (t : ScopeTree) (ps : PlanTable) (heap : Array Instance) (P : Held → Prop)
    (x : Val) : Prop where
  fn : ∀ name, x = .fn name → ∃ f ∈ t.fns, f.name = name ∧ f.isSynthetic = false
  closure : ∀ name held, x = .closure name held → P held ∧
    (∃ k, t.closures[held.closure]? = some k ∧ name = Direct.lambdaName t k ∧
      Covers t ps heap (AroundEq t.scopes · k.declaredIn) held.sight) ∧
    ∀ v, t.Needs held.closure v → IsSet ps heap held.sight v

/-- A value whose closures escape. -/
abbrev Free (t : ScopeTree) (ps : PlanTable) (heap : Array Instance) : Val → Prop :=
  Good t ps heap fun held => t.Escaping held.closure

namespace Good

variable {P Q : Held → Prop} {x : Val}

/-- Values stay good. -/
theorem mono (h : Good t ps heap P x) (hg : Grows heap heap') : Good t ps heap' P x where
  fn := h.fn
  closure name held hx := by
    obtain ⟨hP, ⟨k, hk, hname, hcovers⟩, hset⟩ := h.closure name held hx
    exact ⟨hP, ⟨k, hk, hname, hcovers.mono hg⟩, fun v hv => (hset v hv).mono hg⟩

/-- What follows for the closure holds of it too. -/
theorem imp (h : Good t ps heap P x) (himp : ∀ held, P held → Q held) : Good t ps heap Q x where
  fn := h.fn
  closure name held hx := (h.closure name held hx).imp_left (himp held)

/-- A value that nothing can be called by. -/
theorem of_data {ε : Type} {y : Value ε} (h : Value.Data y x) : Good t ps heap P x where
  fn name hx := by
    subst hx
    cases h
  closure name held hx := by
    subst hx
    cases h

end Good

/-- The handle of the environment of a plan that a closure of a machine has. -/
def handleOf (ps : PlanTable) (d : PlanId) (a : Addr) : Handle :=
  match ps.plans[d]?.map Plan.repr with
  | some .value => .borrowed a
  | some .reference | none => .shared a

/-- A closure of a machine keeps the innermost environment that a closure needs. -/
def Keeps (r : Scheme) (handle : Handle) (held : Held) : Prop :=
  ∀ d, r.plans.bindings.find? held.closure = some (.direct d) →
    ∃ a, held.sight.find? d = some a ∧ handle = handleOf r.plans d a

/-- A value of a machine that stands for another one. -/
abbrev Same (r : Scheme) : Run.Val → Val → Prop :=
  Value.Alike fun _ => Keeps r

/-! ## Worlds -/

/-- An environment of a machine that stands for another one. -/
structure StandsFor (r : Scheme) (o : EnvObject) (i : Instance) : Prop where
  /-- Its fields hold the variables. -/
  slots : ∀ e v f, r.synthesis.envs[i.plan]? = some e → e.fieldFor? v = some f →
    Option.Rel (Same r) (o.slots.find? f.name) (i.slots.find? v)
  /-- Its parent is the environment that is nearest in sight. -/
  parent : ∀ q, r.plans.parent? i.plan = some q →
    ∃ b, i.sight.find? q = some b ∧ o.parent = some (.shared b)

/-- An object stands for the instance still once one more variable has a value in both. -/
theorem StandsFor.insert (hr : r.Sound holds) {o : EnvObject} {i : Instance} (ho : StandsFor r o i)
    {e : EnvType} {v : VarId} {f : EnvField} {x : Run.Val} {y : Val}
    (he : r.synthesis.envs[i.plan]? = some e) (hf : e.fieldFor? v = some f) (hxy : Same r x y) :
    StandsFor r { o with slots := o.slots.insert f.name x }
      { i with slots := i.slots.insert v y } := by
  have hp : i.plan < r.plans.plans.size :=
    hr.synthesis.size ▸ (Array.getElem?_eq_some_iff.mp he).1
  have hmade := hr.synthesis.env i.plan _ e (Array.getElem?_eq_getElem hp) he
  refine ⟨fun e' w g he' hg => ?_, ho.parent⟩
  cases he.symm.trans he'
  dsimp only
  by_cases hwv : w = v
  · subst hwv
    cases hf.symm.trans hg
    rw [SortedMap.find?_insert_self, SortedMap.find?_insert_self]
    exact .some hxy
  · -- Fields for two variables have two names.
    have hne : g.name ≠ f.name := fun heq => hwv (hmade.fields.fieldFor_inj hg hf heq)
    rw [SortedMap.find?_insert_of_ne hne, SortedMap.find?_insert_of_ne hwv]
    exact ho.slots e w g he hg

/-- What holds of the value of a variable in an environment. -/
def InSlot (t : ScopeTree) (ps : PlanTable) (holds : VarId → ClosureId → Prop) (σ : Sight)
    (v : VarId) (held : Held) : Prop :=
  ∃ x, t.vars[v]? = some x ∧ Kept t ps (holds v) x.scope σ held

/-- A machine that stands for a store. -/
structure World (holds : VarId → ClosureId → Prop) (r : Scheme) (m : Machine) (s : Store) :
    Prop where
  /-- There are as many environments. -/
  size : m.heap.size = s.heap.size
  /-- They stand for one another. -/
  objects : ∀ (a : Addr) i, s.heap[a]? = some i → StandsFor r (m.object a) i
  /-- They hold good values. -/
  slots : ∀ (a : Addr) i v x, s.heap[a]? = some i → i.slots.find? v = some x →
    Good r.tree r.plans s.heap (InSlot r.tree r.plans holds i.sight v) x
  /-- The globals are the same. -/
  globals : ∀ name, Option.Rel (Same r) (m.globals.find? name) (s.globals.find? name)
  /-- Their values are free. -/
  global_free : ∀ name x, s.globals.find? name = some x → Free r.tree r.plans s.heap x
  /-- The same instances were built. -/
  singletons : ∀ (p : PlanId) e, r.synthesis.envs[p]? = some e →
    m.singletons.find? e.name = s.singletons.find? p
  /-- As many calls are going on. -/
  depth : m.depth = s.depth

/-- What is related to something that is there is there. -/
theorem exists_of_rel {α β : Type} {R : α → β → Prop} {o : Option α} {b : β}
    (h : Option.Rel R o (some b)) : ∃ a, o = some a ∧ R a b := by
  cases h with
  | some hab => exact ⟨_, rfl, hab⟩

/-- A new environment on the heap of a machine. -/
theorem object_allocate (m : Machine) (o : EnvObject) (a : Addr) :
    (m.allocate o).2.object a = if a = m.heap.size then o else m.object a := by
  unfold Machine.allocate Machine.object
  dsimp only
  rw [Array.getElem?_push]
  split <;> rfl

/-- A field of an environment of a machine. -/
theorem object_store (m : Machine) (a b : Addr) (field : String) (x : Run.Val)
    (hb : b < m.heap.size) : (m.store a field x).object b =
      if a = b then { m.object b with slots := (m.object b).slots.insert field x }
      else m.object b := by
  unfold Machine.store Machine.object
  dsimp only
  rw [Array.getElem?_modify, Array.getElem?_eq_getElem hb]
  split <;> rfl

namespace World

variable {m : Machine} {s : Store}

/-- What a world says of the parts of a machine and a store. -/
theorem congr {m' : Machine} {s' : Store} (h : World holds r m s) (hm : m'.heap = m.heap)
    (hs : s'.heap = s.heap) (hmg : m'.globals = m.globals) (hsg : s'.globals = s.globals)
    (hms : m'.singletons = m.singletons) (hss : s'.singletons = s.singletons)
    (hd : m'.depth = s'.depth) : World holds r m' s' := by
  have hobject (a : Addr) : m'.object a = m.object a := by
    unfold Machine.object
    rw [hm]
  constructor
  · rw [hm, hs, h.size]
  · intro a i hi
    rw [hobject]
    exact h.objects a i (hs ▸ hi)
  · intro a i v x hi hx
    rw [hs]
    exact h.slots a i v x (hs ▸ hi) hx
  · intro name
    rw [hmg, hsg]
    exact h.globals name
  · intro name x hx
    rw [hs]
    exact h.global_free name x (hsg ▸ hx)
  · intro p e he
    rw [hms, hss]
    exact h.singletons p e he
  · exact hd

/-- A new environment on both heaps. -/
theorem allocate (h : World holds r m s) {o : EnvObject} {i : Instance} (ho : StandsFor r o i)
    (hi : ∀ v x, i.slots.find? v = some x →
      Good r.tree r.plans s.heap (InSlot r.tree r.plans holds i.sight v) x) :
    World holds r (m.allocate o).2 { s with heap := s.heap.push i } := by
  have hgrows := Grows.push s.heap i
  -- The heaps are of one size, so the new entries are at one address.
  have hcases (a : Addr) (j : Instance) (hj : (s.heap.push i)[a]? = some j) :
      (a = m.heap.size ∧ j = i) ∨ (a ≠ m.heap.size ∧ s.heap[a]? = some j) := by
    rw [Array.getElem?_push] at hj
    rw [h.size]
    split at hj
    · next heq => exact .inl ⟨heq, (Option.some.inj hj).symm⟩
    · next hne => exact .inr ⟨hne, hj⟩
  constructor
  · simp [Machine.allocate, h.size]
  · intro a j hj
    rw [object_allocate]
    rcases hcases a j hj with ⟨ha, rfl⟩ | ⟨ha, hj⟩
    · rw [if_pos ha]
      exact ho
    · rw [if_neg ha]
      exact h.objects a j hj
  · intro a j v x hj hx
    rcases hcases a j hj with ⟨-, rfl⟩ | ⟨-, hj⟩
    · exact (hi v x hx).mono hgrows
    · exact (h.slots a j v x hj hx).mono hgrows
  · exact h.globals
  · exact fun name x hx => (h.global_free name x hx).mono hgrows
  · exact h.singletons
  · exact h.depth

/-- A value is written to a variable of an environment. -/
theorem store (hr : r.Sound holds) (h : World holds r m s) {a : Addr} {i : Instance} {e : EnvType}
    {v : VarId} {f : EnvField} {x : Run.Val} {y : Val} (hi : s.heap[a]? = some i)
    (he : r.synthesis.envs[i.plan]? = some e) (hf : e.fieldFor? v = some f) (hxy : Same r x y)
    (hy : Good r.tree r.plans s.heap (InSlot r.tree r.plans holds i.sight v) y) :
    World holds r (m.store a f.name x) (s.store a v y) := by
  have hgrows := Grows.store s a v y
  constructor
  · simp [Machine.store, Store.store, h.size]
  · intro b j hj
    obtain ⟨i', hi', rfl⟩ := exists_of_store hj
    rw [object_store m a b _ _ (h.size ▸ (Array.getElem?_eq_some_iff.mp hi').1)]
    split
    · next heq =>
      subst heq
      cases hi.symm.trans hi'
      exact (h.objects a i hi).insert hr he hf hxy
    · exact h.objects b i' hi'
  · intro b j w z hj hz
    obtain ⟨i', hi', rfl⟩ := exists_of_store hj
    split at hz
    · next heq =>
      subst heq
      cases hi.symm.trans hi'
      rw [if_pos rfl]
      dsimp only at hz ⊢
      by_cases hwv : w = v
      · subst hwv
        rw [SortedMap.find?_insert_self, Option.some.injEq] at hz
        exact hz ▸ hy.mono hgrows
      · rw [SortedMap.find?_insert_of_ne hwv] at hz
        exact (h.slots a i w z hi hz).mono hgrows
    · next hne =>
      rw [if_neg hne]
      exact (h.slots b i' w z hi' hz).mono hgrows
  · exact h.globals
  · exact fun name z hz => (h.global_free name z hz).mono hgrows
  · exact h.singletons
  · exact h.depth

/-- A value is written to a global. -/
theorem writeGlobal (h : World holds r m s) (name : String) {x : Run.Val} {y : Val}
    (hxy : Same r x y) (hy : Free r.tree r.plans s.heap y) :
    World holds r { m with globals := m.globals.insert name x }
      { s with globals := s.globals.insert name y } where
  size := h.size
  objects := h.objects
  slots := h.slots
  globals other := by
    by_cases hne : other = name
    · subst hne
      dsimp only
      rw [SortedMap.find?_insert_self, SortedMap.find?_insert_self]
      exact .some hxy
    · dsimp only
      rw [SortedMap.find?_insert_of_ne hne, SortedMap.find?_insert_of_ne hne]
      exact h.globals other
  global_free other z hz := by
    dsimp only at hz
    by_cases hne : other = name
    · subst hne
      rw [SortedMap.find?_insert_self, Option.some.injEq] at hz
      exact hz ▸ hy
    · rw [SortedMap.find?_insert_of_ne hne] at hz
      exact h.global_free other z hz
  singletons := h.singletons
  depth := h.depth

end World

end ClosureEnv.Run.Lasting
