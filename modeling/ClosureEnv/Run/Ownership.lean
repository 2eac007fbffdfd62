import ClosureEnv.Graph.Rounds
import ClosureEnv.Run.Machine

/-!
# Ownership of environments

An environment is there as long as someone has a share in it: a frame that entered it or runs a
lambda with it, a value in use, or another environment that is there. It is gone as soon as the
last share is, and so is what only it had a share in. Environments that have shares in one another
keep one another.
-/

namespace ClosureEnv.Run

/-- The environment that a handle has a share in. -/
def Handle.owned : Handle → List Addr
  | shared a => [a]
  | borrowed _ => []

/-- The environment that a value has a share in. -/
def Value.owned : Val → List Addr
  | closure _ env => env.owned
  | _ => []

/-- The environments that an environment has a share in. -/
def EnvObject.owned (e : EnvObject) : List Addr :=
  e.slots.flatMap (fun s => s.2.owned) ++ e.parent.toList.flatMap Handle.owned

/-- The environments that a frame has a share in. -/
def Frame.owned (f : Frame) : List Addr :=
  f.envs.map Prod.snd ++ f.envParam.toList.flatMap Handle.owned
    ++ f.pending.flatMap Value.owned ++ f.locals.flatMap fun x => x.2.owned

namespace Machine

variable (m : Machine)

/-- The frames of all bodies that have begun. -/
def frames : List Frame :=
  m.frame :: m.callers

/-- The environments with a share that outlasts the frames. -/
def lasting : List Addr :=
  m.singletons.map Prod.snd ++ m.globals.flatMap (fun x => x.2.owned) ++ m.kept.flatMap Value.owned

/-- Whether an environment is there. -/
def isThere (a : Addr) : Bool :=
  m.frames.any (fun f => f.owned.contains a) || m.lasting.contains a
    || (Graph.supported (fun b => (m.object b).owned) m.heap.size
      (m.frames.flatMap Frame.owned ++ m.lasting)).contains a

variable {m}

/-- What a frame has a share in is there. -/
theorem isThere_of_mem_owned {f : Frame} {a : Addr} (hf : f ∈ m.frames) (ha : a ∈ f.owned) :
    m.isThere a = true := by
  simp only [isThere, Bool.or_eq_true, List.any_eq_true, List.contains_iff_mem]
  exact .inl (.inl ⟨f, hf, ha⟩)

end Machine

end ClosureEnv.Run
