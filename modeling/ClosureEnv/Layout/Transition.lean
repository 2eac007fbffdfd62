import ClosureEnv.Layout.Baseline

/-!
# Transitions

How an environment goes from one generation to the next. A layout may be kept when nothing that
other code has seen of it changes; new fields go to its end. Otherwise it is superseded, and
whatever depends on it has to be built again.
-/

namespace ClosureEnv

/-- Why a layout cannot be kept. -/
inductive Change where
  | representation (before after : Representation)
  | singleton
  | expansion
  | parentAdded
  | parentRemoved
  | parent (before after : String)
  | field (name : String) (before after : Ty)
  deriving DecidableEq, Repr

/-- The wording of a change. -/
def Change.message : Change → String
  | representation before after =>
    "representation changed from " ++ before.describe ++ " to " ++ after.describe
  | singleton => "singleton-ness changed"
  | expansion => "expansion field toggled"
  | parentAdded => "parent link added"
  | parentRemoved => "parent link removed"
  | parent before after => "parent environment changed from " ++ before ++ " to " ++ after
  | field name before after =>
    "field " ++ name ++ " changed type from " ++ before.describe ++ " to " ++ after.describe

/-- What happened to an identity. -/
inductive Transition where
  | created (name : String)
  | unchanged (name : String)
  | extended (name : String) (appended : List String)
  | superseded (previous name : String) (reason : Change)
  /-- Not made this time, though its scope is still there. -/
  | carried (name : String)
  | retired (name : String)
  deriving DecidableEq, Repr

/-- A layout that was superseded, and what has to be built again with it. -/
structure Degradation where
  identity : String
  previous : String
  replacement : String
  reason : Change
  /-- The environments chained below it and the lambdas made with any of them, by name. -/
  dependents : List String
  deriving DecidableEq, Repr

/-- What a lowering did to each identity. -/
structure Report where
  generation : Nat
  transitions : List (String × Transition)
  degraded : List Degradation
  deriving DecidableEq, Repr, Inhabited

/-- What a lowering wants of an environment before it has a name. -/
structure DesiredLayout where
  kind : Representation
  fields : List LayoutField
  parent : Option String
  isSingleton : Bool
  isExpandable : Bool
  deriving DecidableEq, Repr

/-- What becomes of a desired layout. -/
inductive Decision where
  /-- It gets a new name, as nothing stands for it yet. -/
  | mint
  /-- It takes over the name and the fields of a prior layout, with some fields appended. -/
  | reuse (prior : Layout) (appended : List LayoutField)
  /-- It gets a new name, as it does not fit the prior layout. -/
  | supersede (prior : Layout) (reason : Change)

/-- How the parent changed, if it did. -/
def parentChange? : Option String → Option String → Option Change
  | none, none => none
  | none, some _ => some .parentAdded
  | some _, none => some .parentRemoved
  | some a, some b => if a == b then none else some (.parent a b)

/-- The field of a name. -/
def Layout.field? (l : Layout) (name : String) : Option LayoutField :=
  l.fields.find? (·.name == name)

/-- The first desired field whose type changed. -/
def fieldChange? (prior : Layout) (fields : List LayoutField) : Option Change :=
  fields.findSome? fun f =>
    (prior.field? f.name).bind fun old =>
      if old.ty == f.ty then none else some (.field f.name old.ty f.ty)

/-- Why a desired layout does not fit a prior one, if it does not. -/
def change? (prior : Layout) (d : DesiredLayout) : Option Change :=
  if prior.kind != d.kind then some (.representation prior.kind d.kind)
  else if prior.isSingleton != d.isSingleton then some .singleton
  else if prior.isExpandable != d.isExpandable then some .expansion
  else (parentChange? prior.parent d.parent).or (fieldChange? prior d.fields)

/-- What becomes of a desired layout, given the live layout of its identity. -/
def decideLayout (prior : Option Layout) (d : DesiredLayout) : Decision :=
  match prior with
  | none => .mint
  | some prior =>
    match change? prior d with
    | some reason => .supersede prior reason
    | none => .reuse prior (d.fields.filter fun f => (prior.field? f.name).isNone)

/-- A transition in JSON. -/
def Transition.toJson : Transition → Json
  | created name => .object [("kind", .text "created"), ("name", .text name)]
  | unchanged name => .object [("kind", .text "unchanged"), ("name", .text name)]
  | extended name appended =>
    .object
      [("kind", .text "extended"), ("name", .text name),
        ("appended", .list (appended.map .text))]
  | superseded previous name reason =>
    .object
      [("kind", .text "superseded"), ("previous", .text previous), ("name", .text name),
        ("reason", .text reason.message)]
  | carried name => .object [("kind", .text "carried"), ("name", .text name)]
  | retired name => .object [("kind", .text "retired"), ("name", .text name)]

/-- A degradation in JSON. -/
def Degradation.toJson (d : Degradation) : Json :=
  .object
    [("identity", .text d.identity), ("previous", .text d.previous),
      ("replacement", .text d.replacement), ("reason", .text d.reason.message),
      ("dependents", .list (d.dependents.map .text))]

/-- A report in JSON. -/
def Report.toJson (r : Report) : Json :=
  .object
    [("generation", .nat r.generation),
      ("transitions", .list (r.transitions.map fun e =>
        .object [("identity", .text e.1), ("transition", e.2.toJson)])),
      ("degraded", .list (r.degraded.map Degradation.toJson))]

end ClosureEnv
