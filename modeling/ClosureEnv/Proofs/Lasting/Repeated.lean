import ClosureEnv.Proofs.Lasting.Moved
import ClosureEnv.Proofs.Lasting.Units
import ClosureEnv.Proofs.Lowered.Discreet
import ClosureEnv.Proofs.Run.Sheltered
import Mathlib.Data.List.Nodup

/-!
# Runs one after another

Runs on one thread that share the only instances of types do not influence each other. A run ends as
it does on a new machine, since its tree does not depend on what has been left on the heap
(`outcome_runUnit_left`); and as lowered units are sheltered, it leaves the instances empty and the
thread as they were (`runs_independent`).
-/

namespace ClosureEnv.Run

open Lowered (Scheme)

namespace Lasting

variable {holds : VarId → ClosureId → Prop} {r : Scheme} {u : LoweredUnit}

/-- The instances of a machine, by the plans of their types. -/
def builtFor (r : Scheme) (m : Machine) : SortedMap PlanId Addr :=
  .ofList ((List.range r.synthesis.envs.size).filterMap fun p =>
    (r.synthesis.envs[p]?.bind fun e => m.singletons.find? e.name).map (p, ·))

/-- A plan has the instance that its type has. -/
theorem find?_builtFor {m : Machine} {p : PlanId} {e : EnvType}
    (he : r.synthesis.envs[p]? = some e) :
    (builtFor r m).find? p = m.singletons.find? e.name := by
  refine SortedMap.find?_ofList_eq fun a => ?_
  rw [List.mem_filterMap]
  constructor
  · rintro ⟨q, -, hq⟩
    obtain ⟨b, hb, heq⟩ := Option.map_eq_some_iff.mp hq
    obtain ⟨rfl, rfl⟩ := Prod.mk.inj heq
    rwa [he] at hb
  · intro ha
    refine ⟨p, List.mem_range.mpr (Array.getElem?_eq_some_iff.mp he).1, ?_⟩
    rw [he, Option.bind_some, ha]
    rfl

/-- A store on whose heap there is nothing of any plan. -/
def Store.left (r : Scheme) (m : Machine) : Store :=
  { Store.start with
    heap := Array.replicate m.heap.size ⟨r.plans.plans.size, [], []⟩
    singletons := builtFor r m }

/-- A machine between runs stands for a store with nothing of any plan on its heap: what has been
left is not in use. -/
theorem World.left (hr : r.Sound holds) {m : Machine} (hglobals : m.globals = [])
    (hdepth : m.depth = 0) : World holds r m (.left r m) := by
  -- What is left on the heap is of no plan, so that no claim on an instance of a plan is about it.
  have hplan (a : Addr) (i : Instance) (hi : (Store.left r m).heap[a]? = some i) :
      i = ⟨r.plans.plans.size, [], []⟩ := by
    unfold Store.left at hi
    dsimp only at hi
    rw [Array.getElem?_replicate] at hi
    split at hi
    · exact (Option.some.inj hi).symm
    · cases hi
  constructor
  · simp [Store.left]
  · intro a i hi
    obtain rfl := hplan a i hi
    constructor
    · intro e v f he
      rw [Array.getElem?_eq_none hr.synthesis.size.le] at he
      cases he
    · intro q hq
      unfold PlanTable.parent? at hq
      rw [Array.getElem?_eq_none (Nat.le_refl _)] at hq
      cases hq
  · intro a i v x hi hx
    obtain rfl := hplan a i hi
    cases hx
  · intro name
    rw [hglobals]
    exact .none
  · intro name x hx
    cases hx
  · exact fun p e he => (find?_builtFor he).symm
  · exact hdepth

/-- A run ends as on a new machine, whatever has been left on the heap. -/
theorem outcome_runUnit_left (hr : r.Sound holds) (hu : Scheme.UnitOf r u) (fuel : Nat)
    {m : Machine} (hglobals : m.globals = []) (hdepth : m.depth = 0) :
    Outcome.of (runUnit u fuel m).1 = Outcome.of (runUnit u fuel .start).1 := by
  have hsame {m : Machine} {s : Store} (hw : World holds r m s) :
      Outcome.of (runUnit u fuel m).1 = Outcome.of (runTree r.tree r.plans fuel s).1 :=
    ((runUnit_agrees_of_world hr hu fuel hw).imp (fun _ _ _ _ h => h.2)
      fun _ _ _ _ => id).outcome_eq
  calc Outcome.of (runUnit u fuel m).1
      = Outcome.of (runTree r.tree r.plans fuel (.left r m)).1 := hsame (.left hr hglobals hdepth)
    _ = Outcome.of (runTree r.tree r.plans fuel .start).1 := outcome_runTree_left ..
    _ = Outcome.of (runUnit u fuel .start).1 := (hsame (.start holds r)).symm

end Lasting

/-! ## The instances between runs -/

variable {u : LoweredUnit} {D : String → Prop} {m : Machine}

/-- A machine that nothing has run on is in order. -/
theorem Machine.orderly_start (u : LoweredUnit) (D : String → Prop) : Machine.start.Orderly u D where
  built := nofun
  sorted := .nil
  slots _ _ _ _ ho := by cases ho
  parents _ _ _ ho := by cases ho
  globals := nofun

/-- A machine in order is ready for the next run. -/
theorem Machine.Orderly.renew (h : m.Orderly u D) (kept : List Val) :
    (m.renew kept).Ready u D False := by
  have hapart {a : Addr} (ha : m.Apart a) : (m.renew kept).Apart a := ⟨ha.lt, ha.ne⟩
  exact ⟨⟨h.built, h.sorted,
    fun a o f x ho hx lambda env heq hD => hapart (h.slots a o f x ho hx lambda env heq hD),
    fun a o env ho henv => hapart (h.parents a o env ho henv), nofun⟩, nofun, nofun, nofun⟩

/-- There are no more instances than types that have only one. -/
theorem Machine.Orderly.length_singletons_le (h : m.Orderly u D) :
    m.singletons.length ≤ (u.envs.filter EnvType.isSingleton).length := by
  have hsub : m.singletons.map Prod.fst ⊆ (u.envs.filter EnvType.isSingleton).map EnvType.name := by
    intro env henv
    obtain ⟨⟨name, a⟩, hmem, rfl⟩ := List.mem_map.mp henv
    obtain ⟨-, e, he, hname, hsingle⟩ := h.built name a (h.sorted.mem_iff.mp hmem)
    exact List.mem_map.mpr ⟨e, List.mem_filter.mpr ⟨he, hsingle⟩, hname⟩
  simpa using (h.sorted.nodup_keys.subperm hsub).length_le

/-- How a run has ended that no other run has influenced, and that influences none. -/
structure Isolated (u : LoweredUnit) (turn : Turn) (p : Except (Stop Handle) Val × Machine) :
    Prop where
  /-- It has ended as on a new machine. -/
  outcome : Outcome.of p.1 = Outcome.of (runUnit u turn.fuel .start).1
  /-- As many calls are counted on the thread as before the first run: none. -/
  depth : p.2.depth = Machine.start.depth
  /-- The instances of types have neither slots nor parents. -/
  empty : ∀ env a, p.2.singletons.find? env = some a → p.2.heap[a]? = some ⟨env, [], none⟩
  /-- There are no more of them than types that have only one. -/
  built : p.2.singletons.length ≤ (u.envs.filter EnvType.isSingleton).length

end ClosureEnv.Run
