import ClosureEnv.Syntax.Tree
import ClosureEnv.Text.Quoted

/-!
# Values

What expressions evaluate to, and the operators on it. Integers have 64 bits: an operation whose
result does not fit is refused, as is one on operands that it has no meaning for. How a closure
keeps its environment is left open.
-/

namespace ClosureEnv.Run

/-- A value. Closures keep what `ε` is for them. -/
inductive Value (ε : Type) where
  | int (n : Int)
  | bool (b : Bool)
  | str (s : String)
  | unit
  | fn (name : String)
  | closure (lambda : String) (env : ε)
  deriving DecidableEq, Repr, Inhabited

/-- Why a run is given up. Values are in their printed form. -/
inductive RunError where
  | overflow
  | negationOverflow
  | divisionByZero
  | notBool
  | negatedNotInt
  | operandNotBool (op : Syntax.BinaryOp)
  | notComparable (lhs rhs : String)
  | notCombinable (op : Syntax.BinaryOp) (lhs rhs : String)
  | conditionNotBool
  | loopConditionNotBool
  | notCallable (value : String)
  | undefinedFunction (name : String)
  | undefinedLambda (name : String)
  | functionArity (name : String) (expected found : Nat)
  | closureArity (name : String) (expected found : Nat)
  | callDepth (limit : Nat)
  | localUnset (name : String)
  | undeclaredLocal (name : String)
  | globalUnset (name : String)
  | uninitializedGlobal (name : String)
  | fieldUnset (env field : String)
  | uninitializedSlot
  | missingSlot (env field : String)
  | unknownEnv (env : String)
  | envNotLive (name : String)
  | noEnvParam
  | noParent (env : String)
  | scopeExited
  | noInstance (env : String)
  | noMain (unit : String)
  | mainTakesParams
  deriving DecidableEq, Repr

/-- The wording of an error. -/
def RunError.message : RunError → String
  | overflow => "integer overflow"
  | negationOverflow => "integer overflow in negation"
  | divisionByZero => "division by zero"
  | notBool => "`!` expects Bool"
  | negatedNotInt => "unary `-` expects Int"
  | operandNotBool op => op.symbol ++ " expects Bool"
  | notComparable lhs rhs => "cannot compare " ++ lhs ++ " with " ++ rhs
  | notCombinable op lhs rhs => "`" ++ op.symbol ++ "` cannot combine " ++ lhs ++ " and " ++ rhs
  | conditionNotBool => "if condition must be Bool"
  | loopConditionNotBool => "while condition must be Bool"
  | notCallable value => "cannot call non-function value: " ++ value
  | undefinedFunction name => "undefined function `" ++ name ++ "`"
  | undefinedLambda name => "undefined lambda `" ++ name ++ "`"
  | functionArity name expected found =>
    "`" ++ name ++ "` expects " ++ toString expected ++ " arguments, got " ++ toString found
  | closureArity name expected found =>
    "closure `" ++ name ++ "` expects " ++ toString expected ++ " arguments, got "
      ++ toString found
  | callDepth limit =>
    "maximum call depth (" ++ toString limit ++ ") exceeded - possible infinite recursion"
  | localUnset name => "local `" ++ name ++ "` read before assignment"
  | undeclaredLocal name => "assignment to undeclared local `" ++ name ++ "`"
  | globalUnset name => "global `" ++ name ++ "` read before initialization"
  | uninitializedGlobal name => "assignment to uninitialized global `" ++ name ++ "`"
  | fieldUnset env field => "`" ++ env ++ "." ++ field ++ "` read before initialization"
  | uninitializedSlot => "uninitialized slot used as a value"
  | missingSlot env field => "missing initial value for `" ++ env ++ "." ++ field ++ "`"
  | unknownEnv env => "unknown environment type `" ++ env ++ "`"
  | envNotLive name => "environment `" ++ name ++ "` is not live"
  | noEnvParam => "no environment parameter in this frame"
  | noParent env => "environment `" ++ env ++ "` has no parent"
  | scopeExited => "value environment used after its scope exited"
  | noInstance env => "`" ++ env ++ "` has no singleton accessor"
  | noMain unit => "unit '" ++ unit ++ "' has no main function"
  | mainTakesParams => "main must not take parameters"

namespace Value

variable {ε : Type}

/-- The name of the type of a value. -/
def typeName : Value ε → String
  | int _ => "Int"
  | bool _ => "Bool"
  | str _ => "Str"
  | unit => "Unit"
  | fn _ => "Fn"
  | closure .. => "Closure"

/-- A value as it is printed. Nothing in a string is escaped. -/
def text : Value ε → String
  | int n => toString n
  | bool b => if b then "true" else "false"
  | str s => "\"" ++ s ++ "\""
  | unit => "()"
  | fn name => "<fn " ++ name ++ ">"
  | closure lambda _ => "<closure " ++ lambda ++ ">"

/-- A value in full, given how the environment of a closure is written. -/
def outline (env : ε → String) : Value ε → String
  | int n => "Int(" ++ toString n ++ ")"
  | bool b => if b then "Bool(true)" else "Bool(false)"
  | str s => "Str(" ++ Text.quoted s ++ ")"
  | unit => "Unit"
  | fn name => "Fn(" ++ Text.quoted name ++ ")"
  | closure lambda e =>
    "Closure \x7b lambda: " ++ Text.quoted lambda ++ ", env: " ++ env e ++ " \x7d"

/-- The value of a literal. -/
def ofLiteral : Syntax.Literal → Value ε
  | .int n => int n
  | .str s => str s
  | .bool b => bool b
  | .nil => unit

/-- Whether a number has 64 bits with its sign. -/
def isWord (n : Int) : Bool :=
  -0x8000000000000000 ≤ n && n < 0x8000000000000000

/-- An integer, if it has 64 bits; an error otherwise. -/
def word (otherwise : RunError) (n : Int) : Except RunError (Value ε) :=
  if isWord n then .ok (int n) else .error otherwise

/-- Whether two values are equal. Closures cannot be compared, nor values of different types. -/
def equal : Value ε → Value ε → Except RunError Bool
  | int m, int n => .ok (m == n)
  | bool a, bool b => .ok (a == b)
  | str s, str t => .ok (s == t)
  | unit, unit => .ok true
  | fn f, fn g => .ok (f == g)
  | v, w => .error (.notComparable v.text w.text)

/-- Applies an operator of one operand. -/
def unary : Syntax.UnaryOp → Value ε → Except RunError (Value ε)
  | .not, bool b => .ok (bool !b)
  | .neg, int n => word .negationOverflow (-n)
  | .not, _ => .error .notBool
  | .neg, _ => .error .negatedNotInt

/-- Applies an operator of two operands to integers, if it has a meaning for them. Division goes
toward zero. -/
def arith? (op : Syntax.BinaryOp) (m n : Int) : Option (Except RunError (Value ε)) :=
  match op with
  | .lt => some (.ok (bool (m < n)))
  | .le => some (.ok (bool (m ≤ n)))
  | .gt => some (.ok (bool (m > n)))
  | .ge => some (.ok (bool (m ≥ n)))
  | .add => some (word .overflow (m + n))
  | .sub => some (word .overflow (m - n))
  | .mul => some (word .overflow (m * n))
  | .div => some (if n == 0 then .error .divisionByZero else word .overflow (m.tdiv n))
  | .eq | .ne | .and | .or => none

/-- Applies an operator of two operands to the values of both. -/
def binary (op : Syntax.BinaryOp) (v w : Value ε) : Except RunError (Value ε) :=
  match op, v, w with
  | .eq, v, w => (equal v w).map bool
  | .ne, v, w => (equal v w).map fun b => bool !b
  | .add, str s, str t => .ok (str (s ++ t))
  | op, int m, int n => (arith? op m n).getD (.error (.notCombinable op v.text w.text))
  | op, v, w => .error (.notCombinable op v.text w.text)

end Value

end ClosureEnv.Run
