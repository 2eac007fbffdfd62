import ClosureEnv.Json.Value
import ClosureEnv.Syntax.Tree

/-!
# Types

The static types that variables and fields of environments carry: what the source says, or what
the initial value shows.
-/

namespace ClosureEnv

/-- A type. -/
inductive Ty where
  | int | bool | str | unit
  /-- A type parameter of the enclosing function. -/
  | param (name : String)
  /-- A name that stands for nothing known. -/
  | named (name : String)
  /-- The type of functions. -/
  | fn (params : List Ty) (ret : Ty)
  /-- A reference to an environment of a named type. -/
  | env (name : String)
  /-- Whatever a later generation puts there. -/
  | object
  /-- Neither annotated nor shown by an initial value. -/
  | unknown
  deriving Repr, Inhabited

namespace Ty

mutual

/-- Whether two types are the same. -/
def beq : Ty → Ty → Bool
  | int, int | bool, bool | str, str | unit, unit | object, object | unknown, unknown => true
  | param a, param b | named a, named b | env a, env b => a == b
  | fn ps r, fn qs s => beqs ps qs && beq r s
  | _, _ => false

/-- Whether two lists of types are the same. -/
def beqs : List Ty → List Ty → Bool
  | [], [] => true
  | p :: ps, q :: qs => beq p q && beqs ps qs
  | _, _ => false

end

mutual

private theorem beq_iff : ∀ a b : Ty, beq a b = true ↔ a = b
  | int, b | bool, b | str, b | unit, b | object, b | unknown, b => by cases b <;> simp [beq]
  | param a, b | named a, b | env a, b => by cases b <;> simp [beq]
  | fn ps r, b => by cases b <;> simp [beq, beqs_iff ps, beq_iff r]

private theorem beqs_iff : ∀ as bs : List Ty, beqs as bs = true ↔ as = bs
  | [], bs => by cases bs <;> simp [beqs]
  | a :: as, bs => by cases bs <;> simp [beqs, beq_iff a, beqs_iff as]

end

instance : DecidableEq Ty := fun a b =>
  decidable_of_iff (beq a b = true) (beq_iff a b)

mutual

/-- The type that a written type stands for, where the type parameters in scope are `generics`. -/
def ofTypeExpr (generics : List String) : Syntax.TypeExpr → Ty
  | .path name =>
    match name.text with
    | "Int" => int
    | "Bool" => bool
    | "Str" | "String" => str
    | "Unit" => unit
    | other => if generics.contains other then param other else named other
  | .arrow params ret _ => fn (ofTypeExprs generics params) (ofTypeExpr generics ret)

/-- The types that some written types stand for. -/
def ofTypeExprs (generics : List String) : List Syntax.TypeExpr → List Ty
  | [] => []
  | t :: ts => ofTypeExpr generics t :: ofTypeExprs generics ts

end

/-- The type of a literal. -/
def ofLiteral : Syntax.Literal → Ty
  | .int _ => int
  | .str _ => str
  | .bool _ => bool
  | .nil => unit

mutual

/-- Whether a type parameter occurs in a type. -/
def isGeneric : Ty → Bool
  | param _ => true
  | fn params ret => anyGeneric params || isGeneric ret
  | _ => false

/-- Whether a type parameter occurs in one of the types. -/
def anyGeneric : List Ty → Bool
  | [] => false
  | t :: ts => isGeneric t || anyGeneric ts

end

mutual

/-- The type as it is printed. -/
def describe : Ty → String
  | int => "Int"
  | bool => "Bool"
  | str => "Str"
  | unit => "Unit"
  | param name | named name => name
  | fn params ret => "fn(" ++ ", ".intercalate (describes params) ++ ") -> " ++ describe ret
  | env name => "&" ++ name
  | object => "Object"
  | unknown => "_"

/-- Some types as they are printed. -/
def describes : List Ty → List String
  | [] => []
  | t :: ts => describe t :: describes ts

end

mutual

/-- A type in JSON. -/
def toJson : Ty → Json
  | int => .text "Int"
  | bool => .text "Bool"
  | str => .text "Str"
  | unit => .text "Unit"
  | param name => .tagged "Param" (.text name)
  | named name => .tagged "Named" (.text name)
  | fn params ret =>
    .tagged "Fn" (.object [("params", .list (toJsons params)), ("ret", toJson ret)])
  | env name => .tagged "Env" (.text name)
  | object => .text "Object"
  | unknown => .text "Unknown"

/-- Some types in JSON. -/
def toJsons : List Ty → List Json
  | [] => []
  | t :: ts => toJson t :: toJsons ts

end

end Ty

end ClosureEnv
