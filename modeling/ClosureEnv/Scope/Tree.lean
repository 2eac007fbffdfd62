import ClosureEnv.Fault
import ClosureEnv.Scope.Bound
import ClosureEnv.Ty

/-!
# Scope trees

The lexical scopes of a unit, with the variables, closures, functions and globals declared in
them. Scopes are in preorder, so that every scope follows its parent.
-/

namespace ClosureEnv

/-- The kinds of scope. -/
inductive ScopeKind where
  | function | closure | block | loop
  deriving DecidableEq, Repr, Inhabited

/-- The name of a kind of scope. -/
def ScopeKind.name : ScopeKind → String
  | function => "Function"
  | closure => "Closure"
  | block => "Block"
  | loop => "Loop"

/-- A lexical scope. -/
structure Scope where
  id : ScopeId
  kind : ScopeKind
  parent : Option ScopeId
  /-- The name of the function, then the position below each parent on the way: a name of the
  scope that outlives edits elsewhere. -/
  key : String
  /-- The function around the scope. -/
  owner : FnId
  /-- The closure whose scope this is. -/
  closure : Option ClosureId
  /-- How many scopes are around this one. -/
  depth : Nat
  span : Syntax.Span
  deriving Repr, Inhabited

/-- Whether a scope starts a body of its own; others belong to the body around them. -/
def Scope.isBody (s : Scope) : Bool :=
  s.kind == .function || s.kind == .closure

/-- The parent of a scope, if both exist. -/
def parentIn? (scopes : Array Scope) (s : ScopeId) : Option ScopeId :=
  scopes[s]?.bind Scope.parent

/-- The scopes around `s`, from the inside out, `bound` of them at most. -/
def ancestorsUpTo (scopes : Array Scope) : Nat → ScopeId → List ScopeId
  | 0, _ => []
  | bound + 1, s =>
    match parentIn? scopes s with
    | none => []
    | some p => p :: ancestorsUpTo scopes bound p

/-- The scopes around `s`, from the inside out. A chain without repetition holds each scope once
and may end in one that does not exist. -/
def ancestorsIn (scopes : Array Scope) (s : ScopeId) : List ScopeId :=
  ancestorsUpTo scopes (scopes.size + 1) s

/-- Whether `outer` encloses `s` and differs from it. -/
def isStrictAncestorIn (scopes : Array Scope) (outer s : ScopeId) : Bool :=
  (ancestorsIn scopes s).contains outer

/-- A local variable. -/
structure Variable where
  id : VarId
  name : String
  ty : Ty
  isMut : Bool
  /-- The scope that declares it. -/
  scope : ScopeId
  isParam : Bool
  span : Syntax.Span
  deriving Repr, Inhabited

/-- A closure literal. -/
structure Closure where
  id : ClosureId
  /-- The scope of its parameters and of the locals of its body. -/
  scope : ScopeId
  /-- The scope that the literal stands in. -/
  declaredIn : ScopeId
  /-- The function around it. -/
  owner : FnId
  /-- Its position among the closures of that function. -/
  ordinal : Nat
  /-- The variables from outside `scope` that the body itself mentions, by first mention. -/
  freeVars : List VarId
  /-- Whether the closure may outlive the scope that it is declared in. -/
  escapes : Bool
  params : List VarId
  body : Bound.Expr
  span : Syntax.Span
  deriving Inhabited

/-- A function. -/
structure Function where
  id : FnId
  name : String
  /-- The type parameters. -/
  generics : List String
  scope : ScopeId
  /-- Its position among the functions. -/
  ordinal : Nat
  params : List VarId
  ret : Ty
  body : Bound.Block
  /-- Whether it only holds the initial values of the globals. -/
  isSynthetic : Bool
  deriving Inhabited

/-- Whether a function has type parameters. -/
def Function.isGeneric (f : Function) : Bool :=
  !f.generics.isEmpty

/-- A variable outside of any function. -/
structure Global where
  name : String
  isMut : Bool
  ty : Ty
  /-- The initial value. -/
  init : Bound.Expr
  deriving Inhabited

/-- The scopes of a unit and what they declare. -/
structure ScopeTree where
  unit : String
  scopes : Array Scope
  vars : Array Variable
  closures : Array Closure
  fns : Array Function
  globals : Array Global
  deriving Inhabited

/-- The name of the function that holds the initial values of the globals. -/
def moduleFn : String :=
  "<module>"

namespace ScopeTree

variable (t : ScopeTree)

/-- A scope by its number. -/
def scope (s : ScopeId) : Lower Scope :=
  orInconsistent (.unknownScope s) t.scopes[s]?

/-- A variable by its number. -/
def var (v : VarId) : Lower Variable :=
  orInconsistent (.unknownVariable v) t.vars[v]?

/-- A closure by its number. -/
def closure (c : ClosureId) : Lower Closure :=
  orInconsistent (.unknownClosure c) t.closures[c]?

/-- A function by its number. -/
def function (f : FnId) : Lower Function :=
  orInconsistent (.unknownFunction f) t.fns[f]?

/-- The first variable of a name. -/
def findVar? (name : String) : Option Variable :=
  t.vars.find? fun v => v.name == name

/-- The first scope under a key. -/
def findScope? (key : String) : Option Scope :=
  t.scopes.find? fun s => s.key == key

/-- The scopes around `s`, from the inside out. -/
def ancestors (s : ScopeId) : List ScopeId :=
  ancestorsIn t.scopes s

/-- Whether `outer` encloses `s` and differs from it. -/
def isStrictAncestor (outer s : ScopeId) : Bool :=
  isStrictAncestorIn t.scopes outer s

/-- Whether `outer` is `s` or encloses it. -/
def encloses (outer s : ScopeId) : Bool :=
  outer == s || t.isStrictAncestor outer s

/-- The nearest scope at or above `cur` that starts a body, within `bound` steps; `start` is
where the search began. -/
def bodyFrom (start : ScopeId) : Nat → ScopeId → Lower ScopeId
  | 0, _ => inconsistent (.noEnclosingBody start)
  | bound + 1, cur => do
    let s ← t.scope cur
    if s.isBody then return cur
    else
      match s.parent with
      | some p => bodyFrom start bound p
      | none => inconsistent (.noEnclosingBody start)

/-- The nearest scope at or above `s` that starts a body. -/
def bodyOf (s : ScopeId) : Lower ScopeId :=
  t.bodyFrom s (t.scopes.size + 1) s

/-- The closures on the way from `cur` to `outer`, after those in `done`, within `bound` steps. -/
def closuresFrom (inner outer : ScopeId) (done : List ClosureId) :
    Nat → ScopeId → Lower (List ClosureId)
  | 0, _ => inconsistent (.notEnclosing outer inner)
  | bound + 1, cur =>
    if cur == outer then return done
    else do
      let s ← t.scope cur
      let done := match s.closure with
        | some c => done ++ [c]
        | none => done
      match s.parent with
      | some p => closuresFrom inner outer done bound p
      | none => inconsistent (.notEnclosing outer inner)

/-- The closures whose scopes lie on the way from `inner`, included, up to `outer`, excluded. -/
def closuresBetween (inner outer : ScopeId) : Lower (List ClosureId) :=
  t.closuresFrom inner outer [] (t.scopes.size + 2) inner

end ScopeTree

end ClosureEnv
