import ClosureEnv.Json.Reader
import ClosureEnv.Json.Record
import ClosureEnv.Json.Writer
import ClosureEnv.Layout.Baseline

/-!
# Baselines in JSON

The written form of a baseline, and how it is read back.
-/

namespace ClosureEnv

/-- The name of a state. -/
def LayoutState.name : LayoutState → String
  | active => "Active"
  | superseded => "Superseded"
  | retired => "Retired"

/-- A field of a layout in JSON. -/
def LayoutField.toJson (f : LayoutField) : Json :=
  .object [("name", .text f.name), ("ty", f.ty.toJson)]

/-- A layout in JSON. -/
def Layout.toJson (l : Layout) : Json :=
  .object
    [("name", .text l.name),
      ("kind", .text l.kind.name),
      ("fields", .list (l.fields.map LayoutField.toJson)),
      ("parent", .ofOption .text l.parent),
      ("singleton", .bool l.isSingleton),
      ("expansion", .bool l.isExpandable),
      ("minted_in", .nat l.mintedIn),
      ("state", .text l.state.name),
      ("digest", .text l.digest)]

/-- A layout under its identity, in JSON. -/
def NamedLayout.toJson (e : NamedLayout) : Json :=
  .list [.text e.1, e.2.toJson]

/-- A baseline in JSON. -/
def Baseline.toJson (b : Baseline) : Json :=
  .object
    [("unit", .text b.unit),
      ("generation", .nat b.generation),
      ("envs", .object (b.envs.map fun e => (e.1, e.2.toJson))),
      ("history", .list (b.history.map NamedLayout.toJson))]

/-- The text of a baseline. -/
def Baseline.write (b : Baseline) : String :=
  b.toJson.pretty

/-- The type of a name that has no content. -/
def Ty.ofName? : String → Option Ty
  | "Int" => some .int
  | "Bool" => some .bool
  | "Str" => some .str
  | "Unit" => some .unit
  | "Object" => some .object
  | "Unknown" => some .unknown
  | _ => none

/-- The type of a name and a text. -/
def Ty.ofText? (name content : String) : Option Ty :=
  match name with
  | "Param" => some (.param content)
  | "Named" => some (.named content)
  | "Env" => some (.env content)
  | _ => none

/-- Reads a type. A function type opens an object for itself, one for its parts, and an array for
its parameters. -/
def Ty.ofJson? : Nat → Json → Option Ty
  | _, .text name => ofName? name
  | _ + 1, .object [(name, .null)] => ofName? name
  | _ + 1, .object [(name, .text content)] => ofText? name content
  | room + 3, .object [("Fn", content)] =>
    match content.parts? ["params", "ret"] with
    | some [some (.list params), some ret] => do
      return .fn (← params.mapM (ofJson? room)) (← ofJson? (room + 1) ret)
    | _ => none
  | _, _ => none

/-- Reads a kind of environment. -/
def Representation.ofJson? (room : Nat) (j : Json) : Option Representation :=
  match j.variant? room with
  | some "Value" => some .value
  | some "Reference" => some .reference
  | _ => none

/-- Reads a state. -/
def LayoutState.ofJson? (room : Nat) (j : Json) : Option LayoutState :=
  match j.variant? room with
  | some "Active" => some .active
  | some "Superseded" => some .superseded
  | some "Retired" => some .retired
  | _ => none

/-- Reads a field. -/
def LayoutField.ofJson? : Nat → Json → Option LayoutField
  | 0, _ => none
  | room + 1, j => do
    match ← j.parts? ["name", "ty"] with
    | [some name, some ty] => return ⟨← name.toText?, ← Ty.ofJson? room ty⟩
    | _ => none

/-- The names of the parts of a layout. -/
def Layout.partNames : List String :=
  ["name", "kind", "fields", "parent", "singleton", "expansion", "minted_in", "state", "digest"]

/-- Reads a layout. The parent may be left out. -/
def Layout.ofJson? : Nat → Json → Option Layout
  | 0, _ => none
  | room + 1, j => do
    match ← j.parts? partNames with
    | [some name, some kind, some fields, parent, some singleton, some expansion, some mintedIn,
        some state, some digest] =>
      return {
        name := ← name.toText?
        kind := ← Representation.ofJson? room kind
        fields := ← Json.items? LayoutField.ofJson? room fields
        parent := ← (parent.getD .null).optionText?
        isSingleton := ← singleton.toBool?
        isExpandable := ← expansion.toBool?
        mintedIn := ← mintedIn.word32?
        state := ← LayoutState.ofJson? room state
        digest := ← digest.toText? }
    | _ => none

/-- Reads the layouts by identity. The last of an identity wins. -/
def Baseline.envsOfJson? : Nat → Json → Option (SortedMap String Layout)
  | room + 1, .object fields => do
    return .ofList (← fields.mapM fun f => do return (f.1, ← Layout.ofJson? room f.2))
  | _, _ => none

/-- Reads a baseline. The history may be left out. -/
def Baseline.ofJson? : Nat → Json → Option Baseline
  | 0, _ => none
  | room + 1, j => do
    match ← j.parts? ["unit", "generation", "envs", "history"] with
    | [some unit, some generation, some envs, history] =>
      return {
        unit := ← unit.toText?
        generation := ← generation.word32?
        envs := ← envsOfJson? room envs
        history := ← match history with
          | none => some []
          | some h => Json.items? (Json.pair? (fun _ x => x.toText?) Layout.ofJson?) room h }
    | _ => none

/-- Reads the text of a baseline. -/
def Baseline.read? (document : String) : Option Baseline :=
  (Json.read document).bind (ofJson? Json.maxOpen)

end ClosureEnv
