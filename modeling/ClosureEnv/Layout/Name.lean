import ClosureEnv.Fault

/-!
# Made names

The names that lowering makes for environments, fields and lambdas. Each holds `<` or `$`, which no
name of the source does. A symbol table has the names that a unit takes.
-/

namespace ClosureEnv

namespace Name

/-- The field of an environment that refers to its parent. -/
def parentField : String := "<>parent"

/-- The static field that keeps the only instance of an environment. -/
def instanceField : String := "<>instance"

/-- The static function that gives the only instance of an environment. -/
def instanceAccessor : String := "<>get_instance"

/-- The field reserved for later generations. -/
def expansionField : String := "<>enc$expansion"

/-- The empty environment that closures share. -/
def sharedStaticEnv : String := "<>Env"

/-- The parameter that gives a lambda its environment. -/
def envParam : String := "<>env"

/-- What a name minted after the first generation ends in. -/
def generationSuffix (generation : Nat) : String :=
  if generation == 0 then "" else "#" ++ toString generation

/-- The environment of a scope. -/
def scopeEnv (scope counter generation : Nat) : String :=
  "<>Env" ++ toString scope ++ "_" ++ toString counter ++ generationSuffix generation

/-- The empty environment of a generic function. -/
def staticGenericEnv (fn generation : Nat) : String :=
  "<>Env" ++ toString fn ++ "__static" ++ generationSuffix generation

/-- The lambda of a closure. -/
def lambda (fn : String) (ordinal : Nat) : String :=
  "<" ++ fn ++ ">b__" ++ toString ordinal

/-- The local of a body that holds the environment of a plan. -/
def envLocal (plan : Nat) : String :=
  "<>locals" ++ toString plan

/-- The field of a variable of which `earlier` others have the name too. -/
def field (name : String) (earlier : Nat) : String :=
  if earlier == 0 then name else name ++ "$" ++ toString earlier

/-- The fields of some variables, after those of `seen`. -/
def fieldsFrom (seen : List String) : List String → List String
  | [] => []
  | name :: names => field name (seen.count name) :: fieldsFrom (name :: seen) names

/-- The fields of some variables: their names, with the number of earlier ones of the same name. -/
def fields (names : List String) : List String :=
  fieldsFrom [] names

end Name

/-- The names that a unit takes. -/
structure SymbolTable where
  unit : String
  names : List String
  deriving Repr, Inhabited

namespace SymbolTable

/-- No names yet. -/
def empty (unit : String) : SymbolTable :=
  ⟨unit, []⟩

/-- Whether a name is taken. -/
def contains (t : SymbolTable) (name : String) : Bool :=
  t.names.contains name

/-- Takes a name of the source, taken or not. -/
def reserve (t : SymbolTable) (name : String) : SymbolTable :=
  { t with names := name :: t.names }

/-- Takes a made name, which has to be free. -/
def declare (t : SymbolTable) (name : String) : Lower SymbolTable :=
  if t.contains name then .error (.nameCollision name t.unit) else .ok (t.reserve name)

end SymbolTable

end ClosureEnv
