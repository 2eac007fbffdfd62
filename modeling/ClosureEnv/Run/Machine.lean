import ClosureEnv.Lowered.Unit
import ClosureEnv.Run.Exec

/-!
# Machines

The state of a run: the environments on the heap, the globals, the only instances of types, how
many calls are going on, and the frames of the bodies that run.
-/

namespace ClosureEnv.Run

/-- An environment, by its position on the heap. -/
abbrev Addr := Nat

/-- How a closure, or an environment further in, keeps an environment. -/
inductive Handle where
  /-- With a share in it. -/
  | shared (a : Addr)
  /-- For as long as others keep it. -/
  | borrowed (a : Addr)
  deriving DecidableEq, Repr, Inhabited

/-- The handle as it is printed. -/
def Handle.outline : Handle → String
  | shared _ => "EnvHandle::Shared"
  | borrowed _ => "EnvHandle::Borrowed"

/-- A value of a lowered unit. -/
abbrev Val := Value Handle

/-- An environment. -/
structure EnvObject where
  ty : String
  slots : SortedMap String Val
  parent : Option Handle
  deriving Repr, Inhabited

/-- What belongs to one run of a body. -/
structure Frame where
  locals : SortedMap VarId Val
  /-- The environments that were entered, by their names in the body. -/
  envs : SortedMap String Addr
  /-- What the innermost block has entered. -/
  entered : List String
  /-- The environment of the lambda. -/
  envParam : Option Handle
  /-- Values that the body has computed and is about to use. -/
  pending : List Val
  deriving Repr, Inhabited

/-- The frame of a body with these parameters. -/
def Frame.start (envParam : Option Handle) (locals : List (VarId × Val)) : Frame :=
  ⟨.ofList locals, [], [], envParam, []⟩

/-- The state of a run. -/
structure Machine where
  heap : Array EnvObject
  globals : SortedMap String Val
  /-- The instances that were built. -/
  singletons : SortedMap String Addr
  /-- How many calls are going on. -/
  depth : Nat
  /-- The frame of the body that runs. -/
  frame : Frame
  /-- The frames of the bodies that wait for it, innermost first. -/
  callers : List Frame
  /-- Values that are kept outside of the run. -/
  kept : List Val
  deriving Repr, Inhabited

namespace Machine

/-- Nothing has run yet. -/
def start : Machine :=
  ⟨#[], [], [], 0, .start none [], [], []⟩

/-- An environment on the heap. -/
def object (m : Machine) (a : Addr) : EnvObject :=
  m.heap[a]?.getD default

end Machine

end ClosureEnv.Run
