import ClosureEnv.Run.Exec
import ClosureEnv.Run.Ownership

/-!
# Environments of a run

How environments are reached, read and written, and how they come into existence. A closure that
only borrowed an environment cannot use it once that is gone.
-/

namespace ClosureEnv.Run

namespace Machine

variable (m : Machine)

/-- The environment behind a handle. -/
def follow : Handle → Except RunError Addr
  | .shared a => .ok a
  | .borrowed a => if m.isThere a then .ok a else .error .scopeExited

/-- The environment where the way begins. -/
def root : Lowered.EnvRoot → Except RunError Addr
  | .entered name =>
    match m.frame.envs.find? name with
    | some a => .ok a
    | none => .error (.envNotLive name)
  | .envParam =>
    match m.frame.envParam with
    | some h => m.follow h
    | none => .error .noEnvParam

/-- The parent of an environment. -/
def parentOf (a : Addr) : Except RunError Addr :=
  match (m.object a).parent with
  | some h => m.follow h
  | none => .error (.noParent (m.object a).ty)

/-- The environment at the end of a way. -/
def resolve (r : Lowered.EnvRef) : Except RunError Addr := do
  r.hops.foldlM (fun a _ => m.parentOf a) (← m.root r.root)

/-- The value of a field. -/
def load (p : Lowered.Place) : Except RunError Val := do
  let object := m.object (← m.resolve p.env)
  match object.slots.find? p.field with
  | some v => return v
  | none => .error (.fieldUnset object.ty p.field)

/-- Writes a field. -/
def store (a : Addr) (field : String) (v : Val) : Machine :=
  { m with heap := m.heap.modify a fun e => { e with slots := e.slots.insert field v } }

/-- A new environment on the heap. -/
def allocate (e : EnvObject) : Addr × Machine :=
  (m.heap.size, { m with heap := m.heap.push e })

/-- The environment of this name leaves the frame. -/
def leave (name : String) : Machine :=
  { m with frame.envs := m.frame.envs.erase name }

/-- A new environment enters the frame, in place of one of the same name. -/
def enter (name : String) (e : EnvObject) : Machine :=
  let (a, m) := m.allocate e
  { m with frame.envs := m.frame.envs.insert name a }

/-- The only instance of a type, built at its first use. -/
def sharedInstance (u : LoweredUnit) (env : String) : Option Addr × Machine :=
  match m.singletons.find? env with
  | some a => (some a, m)
  | none =>
    if u.envs.any fun e => e.name == env && e.isSingleton then
      let (a, m) := m.allocate ⟨env, [], none⟩
      (some a, { m with singletons := m.singletons.insert env a })
    else (none, m)

end Machine

/-- The representation of a type of environment. -/
def representation (u : LoweredUnit) (env : String) : Except RunError Representation :=
  match u.envs.reverse.find? (·.name == env) with
  | some e => .ok e.kind
  | none => .error (.unknownEnv env)

end ClosureEnv.Run
