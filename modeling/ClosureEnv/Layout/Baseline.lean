import ClosureEnv.Digest.Sha256
import ClosureEnv.Layout.EnvType

/-!
# Baselines

What one generation of a unit leaves for the next: the layouts that are live, by identity, and the
ones that no longer are. A layout is what other code can see of an environment, and its digest
stands for it.
-/

namespace ClosureEnv

/-- A field of a layout. -/
structure LayoutField where
  name : String
  ty : Ty
  deriving DecidableEq, Repr, Inhabited

/-- What became of a layout. -/
inductive LayoutState where
  | active
  /-- Replaced by another of the same identity. -/
  | superseded
  /-- Gone with its scope. -/
  | retired
  deriving DecidableEq, Repr, Inhabited

/-- The layout of an environment that an earlier generation emitted. -/
structure Layout where
  name : String
  kind : Representation
  fields : List LayoutField
  /-- The type of the parent. -/
  parent : Option String
  isSingleton : Bool
  isExpandable : Bool
  /-- The generation that minted the name. -/
  mintedIn : Nat
  state : LayoutState
  digest : String
  deriving DecidableEq, Repr, Inhabited

/-- A layout under the identity that it stands for. -/
abbrev NamedLayout := String × Layout

/-- What a generation leaves for the next. -/
structure Baseline where
  unit : String
  generation : Nat
  /-- The layouts by identity. -/
  envs : SortedMap String Layout
  /-- The layouts that were superseded or retired, oldest first. -/
  history : List NamedLayout
  deriving DecidableEq, Repr, Inhabited

/-- The live layout of an identity. -/
def Baseline.active? (b : Baseline) (identity : String) : Option Layout :=
  (b.envs.find? identity).filter (·.state == .active)

/-- How many generations are told apart. -/
def generationCount : Nat :=
  0x100000000

/-- The generation after that of a baseline, and the first one where there is none. -/
def nextGeneration : Option Baseline → Nat
  | none => 0
  | some b => (b.generation + 1) % generationCount

namespace EnvType

/-- The text that stands for what can be seen of an environment. Its parts are separated by NUL. -/
def layoutText (e : EnvType) : String :=
  e.name ++ "\x00" ++ e.kind.describe
    ++ e.fields.foldl (fun out f => out ++ "\x00" ++ f.name ++ ":" ++ f.ty.describe) ""
    ++ (match e.parent with
      | some p => "\x00parent:" ++ p
      | none => "")
    ++ (if e.isSingleton then "\x00singleton" else "")
    ++ (if e.isExpandable then "\x00expansion" else "")

/-- The bytes whose digest stands for what can be seen of an environment. -/
def layoutBytes (e : EnvType) : List UInt8 :=
  e.layoutText.toUTF8.toList

/-- The digest of what can be seen of an environment. -/
def digest (e : EnvType) : String :=
  "sha256:" ++ Sha256.digest e.layoutBytes

/-- The layout of an environment. -/
def layout (e : EnvType) : Layout where
  name := e.name
  kind := e.kind
  fields := e.fields.map fun f => ⟨f.name, f.ty⟩
  parent := e.parent
  isSingleton := e.isSingleton
  isExpandable := e.isExpandable
  mintedIn := e.generation
  state := .active
  digest := e.digest

end EnvType

end ClosureEnv
