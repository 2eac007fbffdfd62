import ClosureEnv.Scope.Tree

/-!
# The state of binding

What is known of a unit while its names are resolved: the scopes, variables and closures so far,
the names in sight, and, for the escape hints, what flows where. Every expression has sources, the
closures and variables whose values it may take. A variable collects the sources of what is stored
into it, and a sink collects those of what leaves a scope.
-/

namespace ClosureEnv

/-- Why a module cannot be bound. -/
inductive BindError where
  /-- A name that is neither a local, a global nor a function. -/
  | unknownVariable (name : String) (span : Syntax.Span)
  /-- An assignment to what was not declared as mutable. -/
  | immutableAssignment (name : String) (span : Syntax.Span)
  /-- Two items of one name. -/
  | duplicateItem (name : String) (span : Syntax.Span)
  deriving DecidableEq, Repr

/-- The kind of error. -/
def BindError.kind : BindError → String
  | unknownVariable .. => "UnknownVariable"
  | immutableAssignment .. => "ImmutableAssignment"
  | duplicateItem .. => "DuplicateItem"

/-- The wording of an error. -/
def BindError.message : BindError → String
  | unknownVariable name span => "Unknown variable '" ++ name ++ "' at " ++ span.describe
  | immutableAssignment name span =>
    "Cannot assign to immutable variable '" ++ name ++ "' at " ++ span.describe
  | duplicateItem name span => "Duplicate item '" ++ name ++ "' at " ++ span.describe

namespace Binding

/-- What the value of an expression may come from. -/
inductive Source where
  | closure (c : ClosureId)
  | var (v : VarId)
  deriving DecidableEq, Repr

/-- A place that values reach from the inside. -/
inductive Sink where
  /-- Whatever reaches it escapes. -/
  | escape (sources : List Source)
  /-- Closures declared in the scope or below it escape. -/
  | within (scope : ScopeId) (sources : List Source)
  /-- Closures declared below the scope escape. -/
  | below (scope : ScopeId) (sources : List Source)
  deriving DecidableEq, Repr

/-- A scope that is open, and the names that it has declared, latest first. -/
structure Frame where
  scope : ScopeId
  names : List (String × VarId)
  deriving Repr

/-- The function that is being bound. -/
structure Current where
  id : FnId
  name : String
  generics : List String
  scope : ScopeId
  /-- How many closures it has so far. -/
  closureCount : Nat
  isSynthetic : Bool
  deriving Repr, Inhabited

/-- The state of binding. -/
structure State where
  scopes : Array Scope
  /-- How many children each scope has so far. -/
  childCounts : Array Nat
  vars : Array Variable
  closures : Array Closure
  fns : Array Function
  globals : Array Global
  /-- The types of the functions, as declared. -/
  fnTypes : List (String × Ty)
  /-- Whether each global may be assigned to, and its type; a later entry hides an earlier. -/
  globalTypes : List (String × Bool × Ty)
  /-- The open scopes, innermost first. -/
  frames : List Frame
  /-- The closures around, innermost first. -/
  closureStack : List ClosureId
  current : Current
  /-- The sources of what is stored into each variable. -/
  varSources : Array (List Source)
  sinks : List Sink
  deriving Inhabited

/-- The state before any item. -/
def State.empty : State :=
  ⟨#[], #[], #[], #[], #[], #[], [], [], [], [], default, #[], []⟩

/-- A step of binding. -/
abbrev Bind := StateT State (Except BindError)

namespace State

variable (b : State)

/-- The scope that declarations go to. -/
def currentScope : ScopeId :=
  match b.frames with
  | f :: _ => f.scope
  | [] => 0

/-- The variable that a name stands for: the latest of the innermost scope that declares it. -/
def lookup? (name : String) : Option VarId :=
  b.frames.findSome? fun f => f.names.lookup name

/-- The type of a variable. -/
def varTy (v : VarId) : Ty :=
  (b.vars[v]?.map Variable.ty).getD .unknown

/-- The type of a global. -/
def globalTy (name : String) : Ty :=
  ((b.globalTypes.lookup name).map Prod.snd).getD .unknown

/-- The type of a function. -/
def fnTy (name : String) : Ty :=
  (b.fnTypes.lookup name).getD .unknown

/-- The type of what a function type returns. -/
def resultTy : Ty → Ty
  | .fn _ ret => ret
  | _ => .unknown

mutual

/-- The type that an expression shows, given those of the closures in it. -/
def inferWith (closureTy : ClosureId → Ty) : Bound.Expr → Ty
  | .lit value => .ofLiteral value
  | .var v => b.varTy v
  | .global name => b.globalTy name
  | .fn name => b.fnTy name
  | .unary op _ =>
    match op with
    | .not => .bool
    | .neg => .int
  | .binary op lhs _ =>
    match op with
    | .add =>
      match inferWith closureTy lhs with
      | .str => .str
      | _ => .int
    | .sub | .mul | .div => .int
    | _ => .bool
  | .call callee _ => resultTy (inferWith closureTy callee)
  | .block body => inferBlock closureTy body
  | .cond _ yes _ => inferBlock closureTy yes
  | .loop _ _ => .unit
  | .closure c => closureTy c

/-- The type of the value that a block ends in. -/
def inferBlock (closureTy : ClosureId → Ty) : Bound.Block → Ty
  | .mk _ _ tail => inferTail closureTy tail

/-- The type of an optional value. -/
def inferTail (closureTy : ClosureId → Ty) : Option Bound.Expr → Ty
  | none => .unit
  | some e => inferWith closureTy e

end

/-- The type of a closure, where closures nest at most `bound` deep. -/
def closureTy : Nat → ClosureId → Ty
  | 0, _ => .unknown
  | bound + 1, c =>
    match b.closures[c]? with
    | some closure => .fn (closure.params.map b.varTy) (b.inferWith (closureTy bound) closure.body)
    | none => .unknown

/-- The type that an expression shows. A closure holds only later ones, so they nest no deeper
than there are closures. -/
def infer (e : Bound.Expr) : Ty :=
  b.inferWith (b.closureTy b.closures.size) e

end State

/-- Opens a scope below the current one. -/
def openScope (kind : ScopeKind) (closure : Option ClosureId) (span : Syntax.Span) :
    Bind ScopeId := do
  let b ← get
  let id := b.scopes.size
  let (parent, key, depth) := match b.frames with
    | f :: _ =>
      let above := b.scopes[f.scope]?.getD default
      let index := b.childCounts[f.scope]?.getD 0
      (some f.scope, above.key ++ "/" ++ toString index, above.depth + 1)
    | [] => (none, b.current.name, 0)
  let counts := match parent with
    | some p => b.childCounts.modify p (· + 1)
    | none => b.childCounts
  set { b with
    scopes := b.scopes.push ⟨id, kind, parent, key, b.current.id, closure, depth, span⟩
    childCounts := counts.push 0
    frames := ⟨id, []⟩ :: b.frames }
  return id

/-- Closes the current scope. -/
def closeScope : Bind Unit :=
  modify fun b => { b with frames := b.frames.tail }

/-- Declares a variable in the current scope. -/
def declare (name : String) (ty : Ty) (isMut isParam : Bool) (span : Syntax.Span) :
    Bind VarId := do
  let b ← get
  let id := b.vars.size
  let frames := match b.frames with
    | f :: fs => { f with names := (name, id) :: f.names } :: fs
    | [] => []
  set { b with
    vars := b.vars.push ⟨id, name, ty, isMut, b.currentScope, isParam, span⟩
    varSources := b.varSources.push []
    frames := frames }
  return id

/-- Notes that the innermost closure mentions a variable, which is free if it is declared
outside. -/
def noteUse (v : VarId) : Bind Unit :=
  modify fun b =>
    match b.closureStack with
    | [] => b
    | c :: _ =>
      let inner := (b.closures[c]?.getD default).scope
      let outer := (b.vars[v]?.getD default).scope
      if isStrictAncestorIn b.scopes outer inner then
        { b with closures := b.closures.modify c fun closure =>
            if closure.freeVars.contains v then closure
            else { closure with freeVars := closure.freeVars ++ [v] } }
      else b

/-- Adds to the sources of a variable. -/
def store (v : VarId) (sources : List Source) : Bind Unit :=
  modify fun b => { b with varSources := b.varSources.modify v (· ++ sources) }

/-- Adds a sink. -/
def drain (sink : Sink) : Bind Unit :=
  modify fun b => { b with sinks := sink :: b.sinks }

end Binding

end ClosureEnv
