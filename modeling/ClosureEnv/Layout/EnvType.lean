import ClosureEnv.Layout.Name
import ClosureEnv.Plan.Basic
import ClosureEnv.Ty

/-!
# Types of environments

What lowering emits for an environment: its fields in order, the link to its parent, and whether
it has a constructor, a single instance or a reserved field.
-/

namespace ClosureEnv

/-- A field of an environment. -/
structure EnvField where
  name : String
  ty : Ty
  /-- The variable in the field; a field that is only kept for an earlier generation has none. -/
  var : Option VarId
  deriving DecidableEq, Repr, Inhabited

/-- The type of an environment. -/
structure EnvType where
  plan : PlanId
  name : String
  identity : EnvIdentity
  kind : Representation
  fields : List EnvField
  /-- The type of the environment that it refers to. -/
  parent : Option String
  /-- Whether there is only one instance, built at its first use. -/
  isSingleton : Bool
  /-- Whether a field is reserved for later generations. -/
  isExpandable : Bool
  /-- The generation that minted the name. -/
  generation : Nat
  deriving DecidableEq, Repr, Inhabited

namespace EnvType

/-- The fields that hold a variable. -/
def liveFields (e : EnvType) : List EnvField :=
  e.fields.filter (·.var.isSome)

/-- The first field of a variable. -/
def fieldFor? (e : EnvType) (v : VarId) : Option EnvField :=
  e.fields.find? (·.var == some v)

/-- The parameters of the constructor: the live fields and the parent. Only an environment on the
heap has one. -/
def constructor? (e : EnvType) : Option (List (String × Ty)) :=
  if e.kind == .reference then
    some (e.liveFields.map (fun f => (f.name, f.ty))
      ++ (e.parent.map fun p => (Name.parentField, Ty.env p)).toList)
  else none

end EnvType

/-- A field in JSON. -/
def EnvField.toJson (f : EnvField) : Json :=
  .object ([("name", .text f.name), ("ty", f.ty.toJson)]
    ++ (f.var.map fun v => ("var", .nat v)).toList)

/-- An identity in JSON. -/
def EnvIdentity.toJson : EnvIdentity → Json
  | scope key => .tagged "Scope" (.text key)
  | static => .text "Static"
  | staticGeneric fn => .tagged "StaticGeneric" (.text fn)

/-- The type of an environment in JSON. -/
def EnvType.toJson (e : EnvType) : Json :=
  let params (ps : List (String × Ty)) : Json :=
    .object [("params",
      .list (ps.map fun p => .object [("name", .text p.1), ("ty", p.2.toJson)]))]
  let accessor : Json :=
    .object
      [("cache_field", .text Name.instanceField), ("accessor", .text Name.instanceAccessor)]
  .object
    [("plan", .nat e.plan),
      ("name", .text e.name),
      ("identity", e.identity.toJson),
      ("kind", .text e.kind.name),
      ("fields", .list (e.fields.map EnvField.toJson)),
      ("parent", .ofOption
        (fun p => .object [("field", .text Name.parentField), ("env", .text p)]) e.parent),
      ("constructor", .ofOption params e.constructor?),
      ("singleton", if e.isSingleton then accessor else .null),
      ("expansion",
        if e.isExpandable then EnvField.toJson ⟨Name.expansionField, .object, none⟩ else .null),
      ("generation", .nat e.generation)]

end ClosureEnv
